import Mathlib.Data.List.Basic
import Mathlib.Logic.Relation
import Ownership.Program.Function

/-! # Scopes inside a scope

The search for the scopes inside a scope opens each scope once and never runs out of steps, so it
finds exactly the scopes that are reached by going from parent to child. The order of the scope
table does not matter for that.
-/
namespace Ownership

namespace Function
variable {f g : Function} {s x : String}

def Encloses (f : Function) (s x : String) : Prop :=
  ∃ c ∈ f.scopes.entries, c.parent = some s ∧ c.id = x

theorem exists_of_mem_scopesBelow (n : Nat) {queue seen : List String}
    (h : x ∈ f.scopesBelow n queue seen) : ∃ q ∈ queue, Relation.ReflTransGen f.Encloses q x := by
  induction n generalizing queue seen with
  | zero => exact ⟨x, h, .refl⟩
  | succ n ih =>
    cases queue with
    | nil => cases h
    | cons s queue =>
      rcases List.mem_cons.mp h with rfl | h
      · exact ⟨x, List.mem_cons_self, .refl⟩
      · obtain ⟨q, hq, hpath⟩ := ih h
        rcases List.mem_append.mp hq with hq | hq
        · exact ⟨q, List.mem_cons_of_mem s hq, hpath⟩
        · obtain ⟨c, hc, rfl⟩ := List.mem_map.mp hq
          obtain ⟨hmem, hc⟩ := List.mem_filter.mp hc
          have hparent : c.parent = some s := by simp_all
          exact ⟨s, List.mem_cons_self, .head ⟨c, hmem, hparent, rfl⟩ hpath⟩

def unseen (f : Function) (seen : List String) : List Scope :=
  f.scopes.entries.filter fun c => !seen.contains c.id

def children (f : Function) (s : String) (seen : List String) : List String :=
  (f.scopes.entries.filter fun c => c.parent == some s && !seen.contains c.id).map Scope.id

theorem mem_children {seen : List String} : x ∈ f.children s seen ↔ f.Encloses s x ∧ x ∉ seen := by
  simp only [children, Encloses, List.mem_map, List.mem_filter, Bool.and_eq_true, beq_iff_eq,
    Bool.not_eq_true']
  grind

theorem length_unseen_add_children (s : String) (seen : List String) :
    (f.unseen (seen ++ f.children s seen)).length + (f.children s seen).length ≤
      (f.unseen seen).length := by
  have hrest : (f.unseen (seen ++ f.children s seen)).length ≤
      ((f.unseen seen).filter fun c => !(c.parent == some s)).length := by
    rw [unseen, unseen, List.filter_filter, ← List.countP_eq_length_filter,
      ← List.countP_eq_length_filter]
    refine List.countP_mono_left fun c hc hnew => ?_
    have hnot : c.id ∉ seen ++ f.children s seen := by simpa using hnew
    rw [List.mem_append, mem_children, not_or] at hnot
    have hparent : c.parent ≠ some s := fun hparent => hnot.2 ⟨⟨c, hc, hparent, rfl⟩, hnot.1⟩
    simp [hparent, hnot.1]
  have hsplit := (f.unseen seen).length_eq_length_filter_add fun c => c.parent == some s
  have hchildren : (f.children s seen).length =
      ((f.unseen seen).filter fun c => c.parent == some s).length := by
    rw [children, unseen, List.length_map, List.filter_filter]
  omega

theorem mem_of_closed {opened : List String}
    (hclosed : ∀ o ∈ opened, ∀ x, f.Encloses o x → x ∈ opened) (hs : s ∈ opened)
    (hpath : Relation.ReflTransGen f.Encloses s x) : x ∈ opened := by
  induction hpath with
  | refl => exact hs
  | tail _ hstep ih => exact hclosed _ ih _ hstep

/-- As long as the steps suffice for the queue and all scopes not seen yet, no scope that can be
reached is missed: it has been opened, or it will be. -/
theorem mem_scopesBelow (n : Nat) {opened queue seen : List String}
    (hseen : ∀ x, x ∈ seen ↔ x ∈ opened ∨ x ∈ queue)
    (hopened : ∀ o ∈ opened, ∀ x, f.Encloses o x → x ∈ seen)
    (hn : (f.unseen seen).length + queue.length ≤ n)
    (hs : s ∈ seen) (hpath : Relation.ReflTransGen f.Encloses s x) :
    x ∈ opened ∨ x ∈ f.scopesBelow n queue seen := by
  induction n generalizing opened queue seen with
  | zero =>
    obtain rfl : queue = [] := List.length_eq_zero_iff.mp (by omega)
    have hsame : ∀ x, x ∈ seen ↔ x ∈ opened := by simpa using hseen
    exact Or.inl (mem_of_closed (by simpa only [hsame] using hopened) ((hsame s).mp hs) hpath)
  | succ n ih =>
    cases queue with
    | nil =>
      have hsame : ∀ x, x ∈ seen ↔ x ∈ opened := by simpa using hseen
      exact Or.inl (mem_of_closed (by simpa only [hsame] using hopened) ((hsame s).mp hs) hpath)
    | cons q queue =>
      have hlength := f.length_unseen_add_children q seen
      have hseen' : ∀ x, x ∈ seen ++ f.children q seen ↔ x ∈ q :: opened ∨
          x ∈ queue ++ f.children q seen := by
        simp only [List.mem_append, hseen, List.mem_cons]
        grind
      have hopened' : ∀ o ∈ q :: opened, ∀ x, f.Encloses o x → x ∈ seen ++ f.children q seen := by
        intro o ho x hx
        rw [List.mem_append, mem_children]
        rcases List.mem_cons.mp ho with rfl | ho
        · exact (Decidable.em (x ∈ seen)).imp_right fun hnew => ⟨hx, hnew⟩
        · exact Or.inl (hopened o ho x hx)
      have hn' : (f.unseen (seen ++ f.children q seen)).length +
          (queue ++ f.children q seen).length ≤ n := by
        rw [List.length_append]
        rw [List.length_cons] at hn
        omega
      rcases ih hseen' hopened' hn' (List.mem_append_left _ hs) with hx | hx
      · rcases List.mem_cons.mp hx with rfl | hx
        · exact Or.inr List.mem_cons_self
        · exact Or.inl hx
      · exact Or.inr (List.mem_cons_of_mem q hx)

/-- The scopes found inside a scope are those that are reached from it by going from parent to
child. -/
theorem mem_scopeDescendants : x ∈ f.scopeDescendants s ↔ Relation.ReflTransGen f.Encloses s x := by
  constructor
  · intro h
    obtain ⟨q, hq, hpath⟩ := exists_of_mem_scopesBelow _ h
    rwa [List.mem_singleton.mp hq] at hpath
  · intro hpath
    have hunseen : (f.unseen [s]).length ≤ f.scopes.size := List.length_filter_le ..
    have hfound : x ∈ ([] : List String) ∨ x ∈ f.scopeDescendants s :=
      mem_scopesBelow (f.scopes.size + 1) (by simp) (by simp) (by simpa using hunseen)
        (List.mem_singleton_self s) hpath
    simpa using hfound

def Drops (f : Function) (scope x : String) : Prop :=
  ∃ b ∈ f.bindings.entries, Relation.ReflTransGen f.Encloses scope b.scope ∧ b.name = x

end Function

end Ownership
