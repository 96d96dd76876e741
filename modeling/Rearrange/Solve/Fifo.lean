namespace Rearrange

/-- A first-in first-out queue. The next element to leave heads `front`, the last one to enter
heads `back`. -/
structure Fifo (α : Type) where
  front : List α := []
  back : List α := []

namespace Fifo

variable {α : Type}

/-- The waiting elements, the oldest first. -/
def toList (q : Fifo α) : List α := q.front ++ q.back.reverse

def length (q : Fifo α) : Nat := q.front.length + q.back.length

def pushBack (q : Fifo α) (a : α) : Fifo α := { q with back := a :: q.back }

def popFront (q : Fifo α) : Option (α × Fifo α) :=
  match q.front with
  | a :: front => some (a, { q with front })
  | [] =>
    match q.back.reverse with
    | a :: front => some (a, { front })
    | [] => none

@[simp]
theorem toList_empty : ({} : Fifo α).toList = [] := rfl

@[simp]
theorem length_toList (q : Fifo α) : q.toList.length = q.length := by
  simp [toList, length]

@[simp]
theorem toList_pushBack (q : Fifo α) (a : α) : (q.pushBack a).toList = q.toList ++ [a] := by
  simp [toList, pushBack]

theorem popFront_eq_none_iff {q : Fifo α} : q.popFront = none ↔ q.toList = [] := by
  obtain ⟨_ | ⟨a, front⟩, back⟩ := q
  · cases hback : back.reverse <;> simp [popFront, toList, hback]
  · simp [popFront, toList]

theorem toList_of_popFront {q rest : Fifo α} {a : α} (h : q.popFront = some (a, rest)) :
    q.toList = a :: rest.toList := by
  obtain ⟨_ | ⟨b, front⟩, back⟩ := q
  · cases hback : back.reverse with
    | nil => simp [popFront, hback] at h
    | cons b front =>
      simp only [popFront, hback, Option.some.injEq, Prod.mk.injEq] at h
      obtain ⟨rfl, rfl⟩ := h
      simp [toList, hback]
  · cases h
    rfl

end Fifo

end Rearrange
