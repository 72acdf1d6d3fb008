namespace ProgramSearch

/-!
# First in, first out

A queue keeps the items to be taken next in order and the items added last in
reverse.  All reasoning goes through `toList`, the items in the order in which
they will be taken.
-/

/-- Items leave at the front and arrive at the back. -/
structure Queue (α : Type u) where
  front : List α
  back : List α

namespace Queue

/-- The items in the order in which they will be taken. -/
def toList (queue : Queue α) : List α :=
  queue.front ++ queue.back.reverse

def ofList (items : List α) : Queue α :=
  ⟨items, []⟩

/-- The number of items waiting. -/
def length (queue : Queue α) : Nat :=
  queue.front.length + queue.back.length

/-- Add items behind all others, keeping their order. -/
def append (queue : Queue α) (items : List α) : Queue α :=
  ⟨queue.front, items.reverseAux queue.back⟩

/-- Take the item that has waited longest. -/
def pop? : Queue α → Option (α × Queue α)
  | ⟨first :: front, back⟩ => some (first, ⟨front, back⟩)
  | ⟨[], back⟩ =>
      match back.reverse with
      | [] => none
      | first :: front => some (first, ⟨front, []⟩)

@[simp] theorem length_toList (queue : Queue α) :
    queue.toList.length = queue.length := by
  simp [toList, length]

@[simp] theorem toList_append (queue : Queue α) (items : List α) :
    (queue.append items).toList = queue.toList ++ items := by
  simp [toList, append, List.reverseAux_eq]

theorem toList_of_pop? {queue rest : Queue α} {first : α}
    (taken : queue.pop? = some (first, rest)) :
    queue.toList = first :: rest.toList := by
  rcases queue with ⟨front, back⟩
  cases front with
  | cons head front =>
      simp only [pop?, Option.some.injEq, Prod.mk.injEq] at taken
      rcases taken with ⟨rfl, rfl⟩
      rfl
  | nil =>
      cases reversed : back.reverse with
      | nil => simp [pop?, reversed] at taken
      | cons head front =>
          simp only [pop?, reversed, Option.some.injEq, Prod.mk.injEq] at taken
          rcases taken with ⟨rfl, rfl⟩
          simp [toList, reversed]

theorem pop?_eq_none_iff (queue : Queue α) :
    queue.pop? = none ↔ queue.toList = [] := by
  rcases queue with ⟨front, back⟩
  cases front with
  | cons head front => simp [pop?, toList]
  | nil =>
      cases reversed : back.reverse with
      | nil => simp [pop?, toList, reversed]
      | cons head front => simp [pop?, toList, reversed]

end Queue

end ProgramSearch
