/-!
# Spans

A span is a range of byte offsets in one source. Ends before starts are allowed, and count as
empty.
-/

namespace RefCheck.Text

/-- The bytes from `start` up to, not including, `stop`. A scanner keeps offsets in 32 bits, while
they have no bound here: sources, joined ones too, are taken to be shorter than 2^32 bytes. -/
structure Span where
  start : Nat
  stop : Nat
deriving DecidableEq, Repr, Inhabited

namespace Span

/-- The span of what stands in no source. -/
def none : Span := ⟨0, 0⟩

def length (s : Span) : Nat := s.stop - s.start

def isEmpty (s : Span) : Bool := s.length = 0

end Span

/-- The smallest span over both. -/
def Span.to (s t : Span) : Span := ⟨min s.start t.start, max s.stop t.stop⟩

@[simp] theorem Span.to_start (s t : Span) : (s.to t).start = min s.start t.start := rfl

@[simp] theorem Span.to_stop (s t : Span) : (s.to t).stop = max s.stop t.stop := rfl

/-- How many bytes the characters take in UTF-8. -/
def byteLength : List Char → Nat
  | [] => 0
  | c :: rest => c.utf8Size + byteLength rest

@[simp] theorem byteLength_append (xs ys : List Char) :
    byteLength (xs ++ ys) = byteLength xs + byteLength ys := by
  induction xs with
  | nil => simp [byteLength]
  | cons c rest ih => simp [byteLength, ih, Nat.add_assoc]

end RefCheck.Text
