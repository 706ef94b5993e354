import Glim.Text.Radix

/-!
# Input and output streams

A `std::istream` over a byte string, with the state bits that its operations set, and
the text a `std::ostream` writes for a number. Formatting is that of the classic
locale in base ten.

## Main definitions

* `IStream`: the bytes not yet read, and the state bits
* `IStream.getChar`, `IStream.read`: unformatted input
* `IStream.extractInt32`: `stream >> n` for an `int32_t`
* `IStream.netstring`: the netstring at the head of a stream
-/

namespace Text

/-- An input stream. -/
structure IStream where
  rest : List UInt8
  eof : Bool := false
  fail : Bool := false
  deriving DecidableEq, Repr

/-- White space in the classic locale. -/
def isSpace (c : UInt8) : Bool := c == 32 || (9 ≤ c && c ≤ 13)

/-- An optional sign and the text after it. -/
def splitSign : List UInt8 → Bool × List UInt8
  | c :: cs => if c = minus then (true, cs) else if c = 43 then (false, cs) else (false, c :: cs)
  | [] => (false, [])

namespace IStream

def good (s : IStream) : Bool := !s.eof && !s.fail

/-- Input that ran into the end of the stream. -/
def exhausted : IStream := { rest := [], eof := true, fail := true }

/-- `get()`: the next byte, if any. -/
def getChar (s : IStream) : Option UInt8 × IStream :=
  if s.good then
    match s.rest with
    | c :: rest => (some c, { s with rest := rest })
    | [] => (none, exhausted)
  else (none, { s with fail := true })

/-- `read (buf, n)`: the bytes stored in `buf`, fewer than `n` at the end of the stream. -/
def read (s : IStream) (n : ℕ) : List UInt8 × IStream :=
  if s.good then
    if n ≤ s.rest.length then (s.rest.take n, { s with rest := s.rest.drop n })
    else (s.rest, exhausted)
  else ([], { s with fail := true })

/-- `stream >> n`: white space is skipped, a sign and digits are read, and a missing number
or one outside `int32_t` sets the fail bit. -/
def extractInt32 (s : IStream) : ℤ × IStream :=
  if s.good then
    let (neg, text) := splitSign (s.rest.dropWhile isSpace)
    let digits := text.takeWhile isDigit
    let rest := text.dropWhile isDigit
    let n : ℤ := if neg then -(value digits : ℤ) else value digits
    let bad := digits = [] ∨ n < -2 ^ 31 ∨ 2 ^ 31 ≤ n
    (n, { rest := rest, eof := rest.isEmpty, fail := bad })
  else (0, { s with fail := true })

/-- A number that leaves the stream good is an `int32_t`. -/
theorem extractInt32_lt {s : IStream} (h : s.extractInt32.2.good) :
    s.extractInt32.1 < 2 ^ 31 := by
  unfold extractInt32 at h ⊢
  split_ifs at h ⊢ with hgood
  · simp only [good, Bool.and_eq_true, Bool.not_eq_true', decide_eq_false_iff_not, not_or,
      not_le] at h
    exact h.2.2.2
  · norm_num

theorem length_read_le (s : IStream) (n : ℕ) : (s.read n).1.length ≤ n := by
  unfold read
  split
  · split
    · exact (List.length_take_le _ _)
    · simp only
      omega
  · exact Nat.zero_le _

/-- A read that leaves the stream good was complete. -/
theorem length_read_of_good {s : IStream} {n : ℕ} (h : (s.read n).2.good) :
    (s.read n).1.length = n := by
  unfold read at h ⊢
  split_ifs at h ⊢ with hg hn
  · exact List.length_take.trans (Nat.min_eq_left hn)
  · simp [exhausted, good] at h
  · simp [good] at h

/-- The netstring at the head of the stream, and the stream after it. -/
def netstring (s : IStream) : Option (List UInt8 × IStream) :=
  let number := s.extractInt32
  let colon := number.2.getChar
  let body := colon.2.read number.1.toNat
  let comma := body.2.getChar
  if (number.2.good ∧ 0 ≤ number.1) ∧ (colon.2.good ∧ colon.1 = some 58) ∧ body.2.good ∧
    comma.1 = some 44 then some (body.1, comma.2)
  else none

end IStream

end Text
