namespace Rearrange

/-- A region of the source text, in bytes of its encoding. -/
structure Span where
  start : Nat
  stop : Nat
deriving DecidableEq, Repr

namespace Span

def point (n : Nat) : Span := ⟨n, n⟩

def join (a b : Span) : Span := ⟨a.start, b.stop⟩

def shift (n : Nat) (a : Span) : Span := ⟨a.start + n, a.stop + n⟩

end Span

end Rearrange
