/-!
Cancellation tokens as a tree: the lifetime of a session has the slots of its documents below it,
and a slot the contexts of its versions. A scope is a node of the tree, and to cancel it is to
cancel all that is below it.
-/

namespace PromqlServer.Document

/-- A node, as the way to it from the root. -/
abbrev Scope := List Nat

/-- The scopes that were cancelled themselves, the latest first. -/
abbrev Cancellations := List Scope

namespace Scope

def child (s : Scope) (n : Nat) : Scope := s ++ [n]

/-- A scope is cancelled if it was cancelled itself or lies below one that was. -/
def isCancelled (cancelled : Cancellations) (s : Scope) : Bool :=
  cancelled.any fun root => root.isPrefixOf s

theorem isCancelled_cons_self (cancelled : Cancellations) (s : Scope) :
    isCancelled (s :: cancelled) s = true := by
  simp [isCancelled]

theorem isCancelled_child {cancelled : Cancellations} {s : Scope} (n : Nat)
    (h : isCancelled cancelled s = true) : isCancelled cancelled (s.child n) = true := by
  simp only [isCancelled, List.any_eq_true, List.isPrefixOf_iff_prefix] at h ⊢
  obtain ⟨root, hmem, hpre⟩ := h
  exact ⟨root, hmem, hpre.trans (List.prefix_append s [n])⟩

theorem isCancelled_cons {cancelled : Cancellations} {s : Scope} (t : Scope)
    (h : isCancelled cancelled s = true) : isCancelled (t :: cancelled) s = true := by
  simp only [isCancelled, List.any_cons, Bool.or_eq_true]
  exact Or.inr h

end Scope

end PromqlServer.Document
