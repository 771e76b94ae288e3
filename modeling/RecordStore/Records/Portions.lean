import RecordStore.Records

/-!
# Records of an input in portions

An input hands out its bytes in portions that are as long as it likes. A reader takes bytes up to
each last byte of the delimiter, and has a record when what it has taken ends with the delimiter.

## Main definitions

* `Supply` — an input that hands out portions.
* `Supply.readUntil`, `Supply.readAll` — taking bytes over several portions.
* `PortionReader.next` — the next record.
* `readNth` — what a reader gives when it is asked again and again.
-/

namespace RecordStore

/-- The bytes that are left of an input, and by how many bytes each of the portions to come is
longer than one byte. A portion is empty at the end only. -/
structure Supply where
  rest : Bytes
  lengths : Nat → Nat

namespace Supply

def portion (s : Supply) : Bytes := s.rest.take (s.lengths 0 + 1)

/-- The input behind some bytes. What is left of the portion may be handed out in another one. -/
def consume (s : Supply) (n : Nat) : Supply := ⟨s.rest.drop n, fun i => s.lengths (i + 1)⟩

theorem length_portion_pos {s : Supply} (h : s.rest ≠ []) : 0 < s.portion.length := by
  have := List.length_pos_iff.2 h
  rw [portion, List.length_take]
  omega

theorem portion_append (s : Supply) : s.portion ++ (s.consume s.portion.length).rest = s.rest :=
  List.prefix_iff_eq_append.1 (List.take_prefix _ _)

theorem length_consume_lt {s : Supply} (h : s.rest ≠ []) :
    (s.consume s.portion.length).rest.length < s.rest.length := by
  have := length_portion_pos h
  have := congrArg List.length s.portion_append
  rw [List.length_append] at this
  omega

/-- Takes the bytes up to a byte, and with it; all bytes if it does not occur. -/
def readUntil (last : UInt8) (s : Supply) : Bytes × Supply :=
  if h : s.rest = [] then ([], s)
  else
    let front := s.portion.takeWhile (· != last)
    match s.portion.dropWhile (· != last) with
    | b :: _ => (front ++ [b], s.consume (front.length + 1))
    | [] =>
      have := length_consume_lt h
      let (taken, s') := (s.consume s.portion.length).readUntil last
      (front ++ taken, s')
termination_by s.rest.length

def readAll (s : Supply) : Bytes × Supply :=
  if h : s.rest = [] then ([], s)
  else
    have := length_consume_lt h
    let (taken, s') := (s.consume s.portion.length).readAll
    (s.portion ++ taken, s')
termination_by s.rest.length

theorem append_readUntil (last : UInt8) (s : Supply) :
    (s.readUntil last).1 ++ (s.readUntil last).2.rest = s.rest := by
  fun_induction readUntil last s with
  | case1 s h => rfl
  | case2 s h front b back hb =>
    have hportion : front ++ b :: back = s.portion := by
      rw [← hb]
      exact List.takeWhile_append_dropWhile
    have hfront : front ++ [b] <+: s.rest :=
      .trans ⟨back, by rw [List.append_assoc]; exact hportion⟩ (List.take_prefix _ _)
    simpa [consume] using List.prefix_iff_eq_append.1 hfront
  | case3 s h front hb this taken s' hs ih =>
    have hfront : front = s.portion := by
      have := List.takeWhile_append_dropWhile (p := (· != last)) (l := s.portion)
      rwa [hb, List.append_nil] at this
    rw [hs] at ih
    rw [List.append_assoc, ih, hfront, s.portion_append]

end Supply

structure PortionReader where
  delim : Bytes
  supply : Supply
  /-- Set once the end has been met. -/
  done : Bool

namespace PortionReader

def start (delim : Bytes) (supply : Supply) : PortionReader := ⟨delim, supply, false⟩

/-- Takes bytes until they end with the delimiter, of which `last` is the last byte. -/
def gather (r : PortionReader) (last : UInt8) (buffer : Bytes) : Option Bytes × PortionReader :=
  match _h : r.supply.readUntil last with
  | ([], supply) => (if buffer.isEmpty then none else some buffer, { r with supply, done := true })
  | (b :: taken, supply) =>
    let buffer := buffer ++ b :: taken
    if r.delim.isSuffixOf buffer then
      (some (buffer.take (buffer.length - r.delim.length)), { r with supply })
    else gather { r with supply } last buffer
termination_by r.supply.rest.length
decreasing_by
  have := congrArg List.length (r.supply.append_readUntil last)
  rw [_h, List.length_append, List.length_cons] at this
  dsimp only at this
  omega

def next (r : PortionReader) : Option Bytes × PortionReader :=
  if r.done then (none, r)
  else
    match r.delim.getLast? with
    | none =>
      let (taken, supply) := r.supply.readAll
      (some taken, { r with supply, done := true })
    | some last => r.gather last []

end PortionReader

/-- The answer of a reader when it is asked once more after so many times. -/
def readNth {σ α : Type} (next : σ → Option α × σ) : Nat → σ → Option α
  | 0, s => (next s).1
  | n + 1, s => readNth next n (next s).2

end RecordStore
