import Ownership.Proofs.Lenders

/-! # The order that a signature declares

The bounds of a signature declare an order of lifetime names: the least one that is reflexive and
transitive, has the bounds and lets the static lifetime outlive every name. The order that is
computed knows all chains of bounds between names that are not static, and which names are bounded
by the static lifetime. It does not join the two: a name that is static only by way of another one
is not known to outlive what is beyond. Where there is no such name the two orders are the same, and
otherwise the computed one is not even transitive.
-/
namespace Ownership
open Std

namespace LifetimeOrder
variable {names staticLike : List String} {bounds : List (String × String)} {x y : String}

theorem fst_mem_params_ofBounds {e : String × String} (he : e ∈ bounds) :
    e.1 ∈ (ofBounds names bounds staticLike).params := by
  have hin : e.1 ∈ names ++ bounds.flatMap fun e => [e.1, e.2] :=
    List.mem_append_right _ (List.mem_flatMap.mpr ⟨e, he, by simp⟩)
  simpa [ofBounds] using hin

/-- A name outlives another one if it is static, or if a chain of bounds leads from it to the
other. -/
theorem outlives_ofBounds_iff : (ofBounds names bounds staticLike).outlives x y = true ↔
    x = staticLifetime ∨ x ∈ staticLike ∨
    Relation.ReflTransGen (fun a b => (a, b) ∈ bounds) x y := by
  have hstatic : (ofBounds names bounds staticLike).isStatic x = true ↔ x = staticLifetime ∨
      x ∈ staticLike := by
    simp [isStatic, ofBounds]
  rw [outlives_iff, hstatic]
  constructor
  · rintro (rfl | (hx | hx) | hlonger)
    · exact .inr (.inr .refl)
    · exact .inl hx
    · exact .inr (.inl hx)
    · exact .inr (.inr (chained_ofBounds hlonger))
  · rintro (hx | hx | hchain)
    · exact .inr (.inl (.inl hx))
    · exact .inr (.inl (.inr hx))
    · rcases hchain.cases_head with rfl | ⟨z, hxz, -⟩
      · exact .inl rfl
      · have hx : x ∈ (ofBounds names bounds staticLike).params := fst_mem_params_ofBounds hxz
        exact .inr (.inr (mem_collect_of_chain (fun _ he => snd_mem_params_ofBounds he)
          (self_mem_collect hx) hchain))

end LifetimeOrder

namespace Signature
variable {types : TypeTable} {s : Signature} {o : LifetimeOrder} {x y z : String}

/-- What the bounds declare: the least order that has them and that lets the static lifetime outlive
every name. -/
inductive Declares (s : Signature) : String → String → Prop
  | refl (x : String) : s.Declares x x
  | static (x : String) : s.Declares staticLifetime x
  | bound {x y : String} (h : (x, y) ∈ s.outlives) : s.Declares x y
  | trans {x y z : String} (h : s.Declares x y) (h' : s.Declares y z) : s.Declares x z

def Leads (s : Signature) : String → String → Prop :=
  Relation.ReflTransGen fun x y => (x, y) ∈ s.outlives ∧ x ≠ staticLifetime ∧ y ≠ staticLifetime

/-- A name is static only by way of another one: it is not bounded by the static lifetime itself,
but a chain of bounds leads to a name that is. -/
def StaticThrough (s : Signature) (x : String) : Prop :=
  x ≠ staticLifetime ∧ (x, staticLifetime) ∉ s.outlives ∧ ∃ y, s.Leads x y ∧
    (y, staticLifetime) ∈ s.outlives

theorem Leads.declares (h : s.Leads x y) : s.Declares x y := by
  induction h with
  | refl => exact .refl x
  | tail _ hbound ih => exact ih.trans (.bound hbound.1)

/-- No chain ends in the static lifetime that does not begin there. -/
theorem Leads.eq_static (h : s.Leads x staticLifetime) : x = staticLifetime := by
  rcases h.cases_tail with heq | ⟨y, -, -, -, hne⟩
  · exact heq.symm
  · exact absurd rfl hne

theorem StaticThrough.not_leads (h : s.StaticThrough x) : ¬s.Leads x staticLifetime := fun hleads =>
    h.1 hleads.eq_static

/-- A declared order comes from a chain of bounds, or from one to a name that is static. -/
theorem Declares.leads_or (h : s.Declares x y) :
    s.Leads x y ∨ ∃ z, s.Leads x z ∧ (z = staticLifetime ∨ (z, staticLifetime) ∈ s.outlives) := by
  induction h with
  | refl x => exact .inl .refl
  | static x => exact .inr ⟨staticLifetime, .refl, .inl rfl⟩
  | @bound x y hxy =>
    by_cases hx : x = staticLifetime
    · exact .inr ⟨x, .refl, .inl hx⟩
    · by_cases hy : y = staticLifetime
      · exact .inr ⟨x, .refl, .inr (hy ▸ hxy)⟩
      · exact .inl (.single ⟨hxy, hx, hy⟩)
  | trans _ _ ih ih' =>
    rcases ih with hxy | hstatic
    · rcases ih' with hyz | ⟨w, hyw, hw⟩
      · exact .inl (hxy.trans hyz)
      · exact .inr ⟨w, hxy.trans hyw, hw⟩
    · exact .inr hstatic

section Computed
variable (h : LifetimeOrder.ofSignature types s = .ok o)
include h

theorem outlives_ofSignature_iff : o.outlives x y = true ↔
    x = staticLifetime ∨ (x, staticLifetime) ∈ s.outlives ∨ s.Leads x y := by
  obtain ⟨names, -, h⟩ := Except.bind_inv h
  cases h
  rw [LifetimeOrder.outlives_ofBounds_iff]
  refine or_congr_right (or_congr ?_ ?_)
  · simp
  · have hbound :
        (fun a b => (a, b) ∈ s.outlives.filter fun e =>
          e.1 != staticLifetime && e.2 != staticLifetime) =
        fun a b => (a, b) ∈ s.outlives ∧ a ≠ staticLifetime ∧ b ≠ staticLifetime := by
      funext a b
      simp
    exact iff_of_eq (congrArg (fun r => Relation.ReflTransGen r x y) hbound)

/-- The computed order says what is declared, except of a name that is static only by way of
another. -/
theorem outlives_iff_declares :
    o.outlives x y = true ↔ s.Declares x y ∧ (s.StaticThrough x → s.Leads x y) := by
  rw [outlives_ofSignature_iff h]
  constructor
  · rintro (rfl | hstatic | hleads)
    · exact ⟨.static y, fun hthrough => absurd rfl hthrough.1⟩
    · exact ⟨.trans (.bound hstatic) (.static y), fun hthrough => absurd hstatic hthrough.2.1⟩
    · exact ⟨hleads.declares, fun _ => hleads⟩
  · rintro ⟨hdeclares, hthrough⟩
    by_cases hx : x = staticLifetime
    · exact .inl hx
    by_cases hstatic : (x, staticLifetime) ∈ s.outlives
    · exact .inr (.inl hstatic)
    refine .inr (.inr ?_)
    rcases hdeclares.leads_or with hleads | ⟨z, hxz, rfl | hz⟩
    · exact hleads
    · exact absurd hxz.eq_static hx
    · exact hthrough ⟨hx, hstatic, z, hxz, hz⟩

theorem outlives_static_of_through (hx : s.StaticThrough x) : o.outlives x staticLifetime = false :=
  Bool.eq_false_iff.mpr fun hout => hx.not_leads (((outlives_iff_declares h).mp hout).2 hx)

/-- The computed order is transitive only if no name is static by way of another. -/
theorem not_staticThrough_of_transitive
    (htrans : ∀ x y z, o.outlives x y = true → o.outlives y z = true → o.outlives x z = true)
    (x : String) :
    ¬s.StaticThrough x := by
  intro hx
  have hnone := outlives_static_of_through h hx
  obtain ⟨-, -, y, hleads, hbound⟩ := hx
  have hfirst : o.outlives x y = true := (outlives_ofSignature_iff h).mpr (.inr (.inr hleads))
  have hsecond : o.outlives y staticLifetime = true :=
    (outlives_ofSignature_iff h).mpr (.inr (.inl hbound))
  rw [htrans x y staticLifetime hfirst hsecond] at hnone
  cases hnone

end Computed

/-- The order computed for a signature against the one that its bounds declare: a name outlives
another one if this is declared, unless the name is static only by way of a third and no chain of
bounds leads to the other. Just if there is no such name, the two orders are the same, and just then
the computed one is transitive. -/
theorem outlives_computed (h : LifetimeOrder.ofSignature types s = .ok o) :
    (∀ x y, o.outlives x y = true ↔ s.Declares x y ∧ (s.StaticThrough x → s.Leads x y)) ∧
    ((∀ x y, o.outlives x y = true ↔ s.Declares x y) ↔ ∀ x, ¬s.StaticThrough x) ∧
    ((∀ x y z, o.outlives x y = true → o.outlives y z = true → o.outlives x z = true) ↔
      ∀ x, ¬s.StaticThrough x) := by
  have hsame : (∀ x, ¬s.StaticThrough x) → ∀ x y, o.outlives x y = true ↔ s.Declares x y := by
    intro hnone x y
    rw [outlives_iff_declares h]
    exact and_iff_left fun hx => absurd hx (hnone x)
  refine ⟨fun x y => outlives_iff_declares h, ⟨fun hall => ?_, hsame⟩,
    ⟨not_staticThrough_of_transitive h, fun hnone => ?_⟩⟩
  · refine not_staticThrough_of_transitive h fun x y z hxy hyz => ?_
    rw [hall] at hxy hyz ⊢
    exact hxy.trans hyz
  · intro x y z hxy hyz
    rw [hsame hnone] at hxy hyz ⊢
    exact hxy.trans hyz

def alike : Signature where
  name := "alike"
  params := [{ name := "x", type := 2 }, { name := "y", type := 3 }]
  lifetimes := ["'a", "'b", "'c"]
  outlives := [("'a", "'b"), ("'b", "'a"), ("'c", "'static"), ("'static", "'a")]

/-- The order of a signature with a cycle of bounds and with bounds of both kinds on the static
lifetime. -/
theorem outlives_computed_alike : ∃ o, LifetimeOrder.ofSignature .tagged alike = .ok o ∧
    (∀ x y, o.outlives x y = true ↔ alike.Declares x y) ∧
    ∀ x y z, o.outlives x y = true → o.outlives y z = true → o.outlives x z = true := by
  obtain ⟨o, ho⟩ : ∃ o, LifetimeOrder.ofSignature .tagged alike = .ok o :=
    Except.exists_of_isOk (by decide +kernel)
  have hnone : ∀ x, ¬alike.StaticThrough x := by
    rintro x ⟨-, hdirect, y, hleads, hbound⟩
    obtain rfl : y = "'c" := by simpa [alike, staticLifetime] using hbound
    rcases hleads.cases_tail with rfl | ⟨z, -, hz, -⟩
    · exact hdirect hbound
    · simp [alike] at hz
  obtain ⟨-, hsame, htrans⟩ := outlives_computed ho
  exact ⟨o, ho, hsame.mpr hnone, htrans.mpr hnone⟩

def keep : Signature where
  name := "keep"
  params := [{ name := "x", type := 2 }, { name := "y", type := 3 }]
  returns := some 3
  lifetimes := ["'a", "'b", "'c"]
  outlives := [("'a", "'c"), ("'c", "'static")]

/-- The lifetime of the first reference is declared to outlive that of the second, and it is known
to outlive a name that is known to outlive that of the second; but it is not known to outlive that
of the second itself. -/
theorem keep_order_broken : ∃ o, WellFormed.checkSignature .tagged keep = .ok () ∧
    LifetimeOrder.ofSignature .tagged keep = .ok o ∧ keep.Declares "'a" "'b" ∧
    o.outlives "'a" "'c" = true ∧
    o.outlives "'c" "'b" = true ∧ o.outlives "'a" "'b" = false := by
  have hrun : (do
      let o ← LifetimeOrder.ofSignature .tagged keep
      return (o.outlives "'a" "'c" = true ∧ o.outlives "'c" "'b" = true ∧
        o.outlives "'a" "'b" = false : Bool) : Except Fault Bool) = .ok true := by decide +kernel
  obtain ⟨o, ho, hrun⟩ := Except.bind_inv hrun
  have hdeclares : keep.Declares "'a" "'b" :=
    .trans (.bound (y := "'c") (by decide))
      (.trans (.bound (y := staticLifetime) (by decide)) (.static "'b"))
  exact ⟨o, by decide, ho, hdeclares, of_decide_eq_true (Except.ok.inj hrun)⟩

end Signature

end Ownership
