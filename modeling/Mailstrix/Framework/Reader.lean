import Mailstrix.Framework.Bytes

/-!
# Buffered readers

A connection hands over its bytes in pieces of any size; a reader with a buffer of fixed size stands before it.  What
the reader returns depends on the bytes ahead of it and on the size of its buffer, never on the pieces:

* `readSlice_spec`: up to the delimiter, or as much as the buffer holds, or all that is left;
* `readFull_of_le`, `readFull_of_lt`: so many bytes, or an error if there are not as many.
-/

namespace Framework

inductive ReadError
  | eof
  | unexpectedEOF
  | failed
deriving DecidableEq, Repr

/-- What one read with room for `room` bytes takes from a connection, and what it leaves. -/
def receive (room : Nat) : List Bytes → Bytes × List Bytes
  | [] => ([], [])
  | piece :: pieces =>
    if piece.length ≤ room then (piece, pieces) else (piece.take room, piece.drop room :: pieces)

theorem receive_flatten (room : Nat) (conn : List Bytes) :
    (receive room conn).1 ++ (receive room conn).2.flatten = conn.flatten := by
  cases conn with
  | nil => rfl
  | cons piece pieces =>
    rw [receive]
    split
    · rfl
    · simp [← List.append_assoc]

theorem length_receive (room : Nat) (conn : List Bytes) : (receive room conn).1.length ≤ room := by
  cases conn with
  | nil => exact Nat.zero_le _
  | cons piece pieces =>
    rw [receive]
    split
    · assumption
    · simp

theorem receive_solid {room : Nat} {conn : List Bytes} (h : ∀ piece ∈ conn, piece ≠ []) :
    ∀ piece ∈ (receive room conn).2, piece ≠ [] := by
  cases conn with
  | nil => exact h
  | cons piece pieces =>
    rw [receive]
    split
    · exact fun p hp => h p (List.mem_cons_of_mem _ hp)
    · rename_i hlong
      intro p hp
      rcases List.mem_cons.1 hp with rfl | hp
      · simpa using hlong
      · exact h p (List.mem_cons_of_mem _ hp)

theorem receive_ne_nil {room : Nat} {conn : List Bytes} (hroom : 0 < room) (h : ∀ piece ∈ conn, piece ≠ [])
    (hconn : conn ≠ []) : (receive room conn).1 ≠ [] := by
  cases conn with
  | nil => exact absurd rfl hconn
  | cons piece pieces =>
    have hpiece := h piece List.mem_cons_self
    rw [receive]
    split
    · exact hpiece
    · simp [hpiece, Nat.ne_of_gt hroom]

/-! ## The reader -/

structure Reader where
  size : Nat
  buffered : Bytes
  /-- The pieces in which the bytes not yet received will arrive. -/
  conn : List Bytes
  /-- What the connection answers once it has no more. -/
  ending : ReadError
  size_pos : 0 < size
  fits : buffered.length ≤ size
  solid : ∀ piece ∈ conn, piece ≠ []

namespace Reader

def ahead (r : Reader) : Bytes := r.buffered ++ r.conn.flatten

/-- A reader over an untouched connection. -/
def fresh (size : Nat) (hsize : 0 < size) (conn : List Bytes) (hconn : ∀ piece ∈ conn, piece ≠ []) : Reader where
  size := size
  buffered := []
  conn := conn
  ending := .eof
  size_pos := hsize
  fits := Nat.zero_le _
  solid := hconn

/-- One read of the connection into the room left in the buffer. -/
def fill (r : Reader) : Reader :=
  { r with
    buffered := r.buffered ++ (receive (r.size - r.buffered.length) r.conn).1
    conn := (receive (r.size - r.buffered.length) r.conn).2
    fits := by
      have := length_receive (r.size - r.buffered.length) r.conn
      have := r.fits
      rw [List.length_append]
      omega
    solid := receive_solid r.solid }

@[simp] theorem ahead_fill (r : Reader) : r.fill.ahead = r.ahead := by
  simp only [ahead, fill, List.append_assoc, receive_flatten]

@[simp] theorem ending_fill (r : Reader) : r.fill.ending = r.ending := rfl

theorem fill_shorter {r : Reader} (hroom : r.buffered.length < r.size) (hconn : r.conn ≠ []) :
    r.fill.conn.flatten.length < r.conn.flatten.length := by
  have hne := receive_ne_nil (Nat.sub_pos_of_lt hroom) r.solid hconn
  have hpos := List.length_pos_iff.2 hne
  have hlen := congrArg List.length (receive_flatten (r.size - r.buffered.length) r.conn)
  rw [List.length_append] at hlen
  show (receive (r.size - r.buffered.length) r.conn).2.flatten.length < _
  omega

/-- The buffer without its first `n` bytes. -/
def skip (n : Nat) (r : Reader) : Reader :=
  { r with
    buffered := r.buffered.drop n
    fits := by
      have := r.fits
      rw [List.length_drop]
      omega }

@[simp] theorem ending_skip (n : Nat) (r : Reader) : (r.skip n).ending = r.ending := rfl

theorem ahead_skip {n : Nat} {r : Reader} : r.ahead = r.buffered.take n ++ (r.skip n).ahead := by
  simp only [ahead, skip, ← List.append_assoc, List.take_append_drop]

/-! ## Up to a delimiter -/

inductive Slice
  /-- The bytes before the delimiter, which is taken with them. -/
  | found (line : Bytes)
  /-- A full buffer without the delimiter. -/
  | full (part : Bytes)
  /-- All that was left, without the delimiter. -/
  | ended (part : Bytes)

def readSlice (delim : UInt8) (r : Reader) : Slice × Reader :=
  if delim ∈ r.buffered then
    let line := r.buffered.takeWhile (· != delim)
    (.found line, r.skip (line.length + 1))
  else if _ : r.size ≤ r.buffered.length then (.full r.buffered, r.skip r.buffered.length)
  else if _ : r.conn = [] then (.ended r.buffered, r.skip r.buffered.length)
  else readSlice delim r.fill
termination_by r.conn.flatten.length
decreasing_by exact fill_shorter (Nat.lt_of_not_le ‹_›) ‹_›

/-- What a slice says of the bytes ahead of a reader and behind the call. -/
def Slice.Of (delim : UInt8) (r r' : Reader) : Slice → Prop
  | .found line => r.ahead = line ++ delim :: r'.ahead ∧ delim ∉ line
  | .full part => r.ahead = part ++ r'.ahead ∧ delim ∉ part ∧ part ≠ []
  | .ended part => r.ahead = part ∧ r'.ahead = [] ∧ delim ∉ part

theorem takeWhile_delim {delim : UInt8} {text : Bytes} (h : delim ∈ text) :
    text.take ((text.takeWhile (· != delim)).length + 1) = text.takeWhile (· != delim) ++ [delim] := by
  induction text with
  | nil => cases h
  | cons c text ih =>
    by_cases hc : c = delim
    · simp [hc]
    · have := ih ((List.mem_cons.1 h).resolve_left (Ne.symm hc))
      simp [hc, this]

theorem readSlice_spec (delim : UInt8) (r : Reader) :
    (readSlice delim r).1.Of delim r (readSlice delim r).2 ∧ (readSlice delim r).2.ending = r.ending := by
  fun_induction readSlice delim r with
  | case1 r hmem line =>
    have hahead := @ahead_skip (line.length + 1) r
    rw [takeWhile_delim hmem] at hahead
    refine ⟨⟨by simpa using hahead, ?_⟩, rfl⟩
    intro h
    simpa using List.all_eq_true.1 (List.all_takeWhile (p := (· != delim))) _ h
  | case2 r hmem hfull =>
    have hahead := @ahead_skip r.buffered.length r
    rw [List.take_length] at hahead
    have hpos := r.size_pos
    refine ⟨⟨hahead, hmem, ?_⟩, rfl⟩
    exact List.ne_nil_of_length_pos (by omega)
  | case3 r hmem hfull hconn =>
    refine ⟨⟨by simp [ahead, hconn], by simp [ahead, skip, hconn], hmem⟩, rfl⟩
  | case4 r hmem hfull hconn ih =>
    refine ⟨?_, ih.2⟩
    have hof := ih.1
    cases hs : (readSlice delim r.fill).1 <;> rw [hs] at hof <;> simpa [Slice.Of] using hof

/-! ## A number of bytes -/

/-- One `Read` for at most `k` bytes: from the buffer if it holds any, straight from the connection if `k` is no less
than the buffer, through the buffer otherwise.  No bytes: the connection has ended. -/
def read (k : Nat) (r : Reader) : Bytes × Reader :=
  if r.buffered ≠ [] then (r.buffered.take k, r.skip k)
  else if r.size ≤ k then
    ((receive k r.conn).1, { r with conn := (receive k r.conn).2, solid := receive_solid r.solid })
  else (r.fill.buffered.take k, r.fill.skip k)

theorem read_spec {k : Nat} (hk : 0 < k) (r : Reader) :
    r.ahead = (r.read k).1 ++ (r.read k).2.ahead ∧ (r.read k).1.length ≤ k ∧
      (r.ahead ≠ [] → (r.read k).1 ≠ []) ∧ (r.read k).2.ending = r.ending := by
  unfold read
  split
  · rename_i hbuf
    refine ⟨ahead_skip, List.length_take_le k _, ?_, rfl⟩
    intro _
    simp [hbuf, Nat.ne_of_gt hk]
  · rename_i hbuf
    have hbuf : r.buffered = [] := not_not.1 hbuf
    have hconn : r.ahead ≠ [] → r.conn ≠ [] := by
      rintro hne hnil
      simp [ahead, hbuf, hnil] at hne
    split
    · refine ⟨?_, length_receive k _, ?_, rfl⟩
      · simp [ahead, hbuf, receive_flatten]
      · exact fun hne => receive_ne_nil hk r.solid (hconn hne)
    · refine ⟨?_, List.length_take_le k _, ?_, rfl⟩
      · rw [← ahead_fill, ← ahead_skip]
      · intro hne
        have hroom : 0 < r.size - r.buffered.length := by simp [hbuf, r.size_pos]
        have := receive_ne_nil hroom r.solid (hconn hne)
        simpa [fill, hbuf, Nat.ne_of_gt hk] using this

/-- Reads until there are `k` bytes.  An end of input behind the first byte is unexpected. -/
def readFull (k : Nat) (r : Reader) (got : Bytes) : Except ReadError Bytes × Reader :=
  if _ : k = 0 then (.ok got, r)
  else if _ : (r.read k).1 = [] then
    (.error (if got ≠ [] ∧ r.ending = .eof then .unexpectedEOF else r.ending), (r.read k).2)
  else readFull (k - (r.read k).1.length) (r.read k).2 (got ++ (r.read k).1)
termination_by k
decreasing_by
  have := List.length_pos_iff.2 ‹¬_ = []›
  omega

theorem readFull_of_le (k : Nat) (r : Reader) (got : Bytes) {data rest : Bytes} (hahead : r.ahead = data ++ rest)
    (hdata : data.length = k) :
    ∃ r', readFull k r got = (.ok (got ++ data), r') ∧ r'.ahead = rest ∧ r'.ending = r.ending := by
  fun_induction readFull k r got generalizing data with
  | case1 r got =>
    rw [List.length_eq_zero_iff] at hdata
    subst hdata
    exact ⟨r, by simp, hahead, rfl⟩
  | case2 k r got hk hgot =>
    refine absurd hgot ((read_spec (Nat.pos_of_ne_zero hk) r).2.2.1 ?_)
    rw [hahead]
    intro hnil
    rw [List.append_eq_nil_iff] at hnil
    simp [hnil.1] at hdata
    omega
  | case3 k r got hk hgot ih =>
    obtain ⟨hread, hlen, -, hend⟩ := read_spec (Nat.pos_of_ne_zero hk) r
    obtain ⟨more, hmore⟩ : ∃ more, data = (r.read k).1 ++ more :=
      (List.prefix_of_prefix_length_le ⟨_, hread.symm⟩ ⟨rest, hahead.symm⟩ (by omega)).imp fun _ h => h.symm
    have hnext : (r.read k).2.ahead = more ++ rest := by
      rw [hmore, hread, List.append_assoc] at hahead
      exact List.append_cancel_left hahead
    obtain ⟨r', hok, hrest, hend'⟩ := ih hnext (by have := congrArg List.length hmore; rw [List.length_append] at this; omega)
    exact ⟨r', by rw [hok, hmore, List.append_assoc], hrest, hend'.trans hend⟩

theorem readFull_of_lt (k : Nat) (r : Reader) (got : Bytes) (hk : r.ahead.length < k) :
    ∃ e r', readFull k r got = (.error e, r') := by
  fun_induction readFull k r got with
  | case1 r got => omega
  | case2 k r got h hgot => exact ⟨_, _, rfl⟩
  | case3 k r got h hgot ih =>
    obtain ⟨hread, hlen, -, -⟩ := read_spec (Nat.pos_of_ne_zero h) r
    have := congrArg List.length hread
    rw [List.length_append] at this
    exact ih (by omega)

theorem readFull_ok {k : Nat} {r r' : Reader} {data : Bytes} (h : readFull k r [] = (.ok data, r')) :
    r.ahead = data ++ r'.ahead ∧ data.length = k := by
  rcases Nat.lt_or_ge r.ahead.length k with hlt | hle
  · obtain ⟨e, r₁, herr⟩ := readFull_of_lt k r [] hlt
    rw [herr] at h
    simp at h
  · obtain ⟨r₁, hok, hrest, -⟩ := readFull_of_le k r [] (List.take_append_drop k r.ahead).symm (by simpa using hle)
    rw [hok, List.nil_append, Prod.mk.injEq, Except.ok.injEq] at h
    obtain ⟨rfl, rfl⟩ := h
    exact ⟨by rw [hrest, List.take_append_drop], by simpa using hle⟩

end Reader

end Framework
