import Mailstrix.Proof.Cape.Tasks
import Mailstrix.Proof.Scan.Complete
import Mailstrix.Proof.Cape.Quota
import Mailstrix.Proof.Scan.Cache
import Mailstrix.Proof.Scan.Redis
import Mailstrix.Proof.Scan.Flight
import Mailstrix.Proof.Scan.Lifetime
import Mailstrix.Proof.Scan.Marker
import Mailstrix.Proof.Rules.Install
import Mailstrix.Proof.Extract.Script
import Mailstrix.Proof.Icap.Body
import Mailstrix.Proof.Extract.Mime
import Mailstrix.Proof.Extract.Gate
import Mailstrix.Proof.Cape.Admission
import Mailstrix.Proof.Cape.Sweep
import Mailstrix.Proof.Cape.Dispatch
import Mailstrix.Proof.Cape.Drain
import Mailstrix.Proof.Extract.Xlm.Mention
import Mailstrix.Proof.Extract.Lzma
import Mailstrix.Proof.Extract.Pdf.Filters
import Mailstrix.Proof.Clamd.Stream
import Mailstrix.Proof.Milter.Rules
import Mailstrix.Proof.Cape.Mapper
import Mailstrix.Proof.Cape.Causes
