import Mailstrix.Impl.Cape.Report
import Mailstrix.Framework.Except

/-!
# The signature mapper

`mapper.go`: an administrator's policy that maps signature names to local signals and evidence.
-/

namespace MS.Cape

open Framework

structure SignatureRule where
  name : String
  signal : String
  evidence : Evidence
deriving DecidableEq

def SignatureRule.valid (r : SignatureRule) : Bool :=
  identifier r.name 128 && identifier r.signal 128 && (r.evidence = .malicious || r.evidence = .suspicious)

/-- A policy as `NewSignatureMapper` accepts it. -/
structure SignatureMapper where
  policy : String
  rules : List SignatureRule
  identified : identifier policy 128 = true
  bounded : rules ≠ [] ∧ rules.length ≤ 128
  valid : ∀ r ∈ rules, r.valid = true
  distinct : (rules.map SignatureRule.name).Nodup

def newSignatureMapper (policy : String) (rules : List SignatureRule) : Except Err SignatureMapper :=
  if h : identifier policy 128 = true ∧ (rules ≠ [] ∧ rules.length ≤ 128) ∧ (∀ r ∈ rules, r.valid = true) ∧
      (rules.map SignatureRule.name).Nodup then
    .ok ⟨policy, rules, h.1, h.2.1, h.2.2.1, h.2.2.2⟩
  else .error (.code .invalid)

namespace SignatureMapper

/-- `m.rules[name]` -/
def rule? (m : SignatureMapper) (name : String) : Option SignatureRule := m.rules.find? (·.name = name)

/-- The evidence after one more matched rule. -/
def raise (current : Evidence) (rule : SignatureRule) : Evidence :=
  if rule.evidence = .malicious ∨ current = .noSignal then rule.evidence else current

/-- One signature: its name, if it is an object with a string there. -/
def look (m : SignatureMapper) (st : Finset String × Evidence) (raw : Option String) :
    Except Err (Finset String × Evidence) := do
  let name ← need raw (.code .protocol)
  check (identifier name 128 = true) (.code .protocol)
  match m.rule? name with
  | none => pure st
  | some rule => pure (insert rule.signal st.1, raise st.2 rule)

abbrev sorted (seen : Finset String) : List String := seen.sort

/-- `Normalize` of a report with these signatures; `none` if there is no report, or no array in it. -/
def normalize (m : SignatureMapper) (signatures : Option (List (Option String))) (policy : String) :
    Except Err NormalizedResult := do
  check (policy = m.policy) (.code .protocol)
  let raws ← need signatures (.code .protocol)
  check (raws.length ≤ 4096) (.code .protocol)
  let (seen, evidence) ← raws.foldlM m.look (∅, .noSignal)
  let result : NormalizedResult := { version := 1, policy := policy, evidence := evidence, signals := sorted seen }
  let _ ← normalizedBytes result policy
  pure result

end SignatureMapper

end MS.Cape
