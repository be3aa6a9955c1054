import Ownership.Check.Report
import Ownership.Proofs.LifetimeOrder
import Ownership.Proofs.Totality

/-! # What a result borrows

The body of a function may return a reference parameter whose lifetime outlives the one that the
signature promises. A call takes the result to borrow from the arguments of those parameters that
have exactly the promised lifetime. The two agree unless a declared bound makes one lifetime stand
for another: then the argument counts as a lender only if it is passed for a parameter of the
promised lifetime as well.
-/
namespace Ownership
open Std

theorem Except.mem_filterMapM_iff {α β : Type} {g : α → Except Fault (Option β)} {l : List α}
    {kept : List β} (h : l.filterMapM g = .ok kept) {b : β} :
    b ∈ kept ↔ ∃ a ∈ l, g a = .ok (some b) := by
  refine ⟨Except.mem_of_filterMapM h b, ?_⟩
  induction l generalizing kept with
  | nil => simp
  | cons a l ih =>
    rw [List.filterMapM_cons] at h
    obtain ⟨found, ha, h⟩ := Except.bind_inv h
    rintro ⟨a', ha', hb⟩
    rcases List.mem_cons.mp ha' with rfl | ha'
    · cases ha.symm.trans hb
      obtain ⟨rest, -, h⟩ := Except.bind_inv h
      cases h
      exact List.mem_cons_self
    · cases found with
      | none => exact ih h ⟨a', ha', hb⟩
      | some b' =>
        obtain ⟨rest, hrest, h⟩ := Except.bind_inv h
        cases h
        exact List.mem_cons_of_mem _ (ih hrest ⟨a', ha', hb⟩)

namespace WellFormed
variable {types : TypeTable} {s : Signature}

/-- The types of a checked signature are defined. -/
theorem checkSignature_typed (h : checkSignature types s = .ok ()) : s.Typed types := by
  obtain ⟨_, -, h⟩ := Except.bind_inv h
  obtain ⟨lts, hparams, hret⟩ := Except.bind_inv h
  refine ⟨checkParams_inv hparams, fun id hid => ?_⟩
  rw [Option.mem_def.mp hid] at hret
  obtain ⟨lt, hlt, -⟩ := Except.bind_inv hret
  exact lifetimeOf_inv hlt

end WellFormed

namespace LifetimeOrder
variable {o : LifetimeOrder} {types : TypeTable} {s : Signature} {x y : String}
    {lt required : Lifetime}

/-- A name that does not live for ever outlives another one only by a chain of declared bounds. -/
theorem chain_of_outlives (h : ofSignature types s = .ok o) (hx : o.isStatic x = false)
    (hxy : o.outlives x y = true) : Relation.ReflTransGen (fun a b => (a, b) ∈ s.outlives) x y := by
  rcases outlives_iff.mp hxy with rfl | hstatic | hlonger
  · exact .refl
  · rw [hx] at hstatic
    cases hstatic
  · obtain ⟨names, -, h⟩ := Except.bind_inv h
    cases h
    exact Relation.ReflTransGen.mono (fun _ _ hab => (List.mem_filter.mp hab).1) _ _
      (chained_ofBounds hlonger)

/-- Each mortal name of a lifetime that stands where another is promised outlives a name of the
promise. -/
theorem exists_outlived_of_satisfies (ho : o.Transitive) (h : o.satisfies lt required = true)
    (hx : x ∈ lt) (hmortal : o.isStatic x = false) :
    ∃ y ∈ required, o.isStatic y = false ∧ o.outlives x y = true := by
  obtain ⟨y, hy, hxy⟩ := (satisfies_iff ho).mp h x (mem_mortal.mpr ⟨hx, hmortal⟩)
  obtain ⟨hy, hmortal'⟩ := mem_mortal.mp hy
  exact ⟨y, hy, hmortal', hxy⟩

end LifetimeOrder

namespace Signature
variable {types : TypeTable} {s : Signature} {id inner : TypeId} {exclusive : Bool}
    {tag : Option String}
variable {call : Call} {lenders : List String} {arg : String}

section Returned
variable (hret : s.returns = some id) (hid : types.fetch id = .ok (.ref inner exclusive tag))
include hret hid

/-- What a signature with a reference result promises of it. -/
theorem promised?_of_tag {t : String} (ht : tag = some t) (hstatic : t ≠ staticLifetime) :
    Lifetime.promised? types s = .ok (some {t}) := by
  rw [Lifetime.promised?, hret]
  refine (Except.bind_of_ok hid).trans ?_
  subst ht
  simp [hstatic, pure, Except.pure]

/-- Without a binding by the caller, the lenders are the arguments of the reference parameters that
have the lifetime of the result, or of all reference parameters if it has none. -/
theorem mem_lenders_iff (hbound : ∀ t ∈ tag, call.boundTo t = none)
    (h : s.lenders types call = .ok lenders) :
    arg ∈ lenders ↔ ∃ q lt, (arg, q) ∈ call.args.zip s.params ∧
    Lifetime.ofParam? types q = .ok (some lt) ∧
      ∀ t ∈ tag, lt = {t} := by
  rw [Signature.lenders, hret] at h
  obtain ⟨d, hd, h⟩ := Except.bind_inv h
  cases hid.symm.trans hd
  have hfree : tag.bind call.boundTo = none := by
    cases tag with
    | none => rfl
    | some t => exact hbound t rfl
  simp only [hfree] at h
  rw [Except.mem_filterMapM_iff h]
  constructor
  · rintro ⟨⟨a, q⟩, he, hg⟩
    obtain ⟨lt, hlt, hg⟩ := Except.bind_inv hg
    cases lt with
    | none => cases hg
    | some lt =>
      cases tag with
      | none =>
        cases hg
        exact ⟨q, lt, he, hlt, nofun⟩
      | some t =>
        dsimp only at hg
        split at hg
        · rename_i heq
          cases hg
          refine ⟨q, lt, he, hlt, ?_⟩
          rintro _ ⟨⟩
          exact eq_of_beq heq
        · cases hg
  · rintro ⟨q, lt, he, hlt, htag⟩
    refine ⟨(arg, q), he, (Except.bind_of_ok hlt).trans ?_⟩
    cases tag with
    | none => rfl
    | some t => simp [htag t rfl, pure, Except.pure]

end Returned

/-- The lifetime of a parameter stands for the promised one by declared bounds alone. -/
def StandsBy (s : Signature) (name promised : String) : Prop :=
  name ≠ promised ∧ Relation.TransGen (fun a b => (a, b) ∈ s.outlives) name promised

/-- Take a checked signature with a reference result, and a parameter with a mortal lifetime that a
body may return. A call without a binding of the result's lifetime finds its lenders. The
parameter's argument is one of them if the result has no lifetime or that of the parameter.
Otherwise a chain of declared bounds leads from the parameter's lifetime to that of the result, and
the argument is a lender just in case it is also passed for a parameter that has the lifetime of the
result. -/
theorem lenders_of_returnable (hs : WellFormed.checkSignature types s = .ok ())
    (hret : s.returns = some id) (hid : types.fetch id = .ok (.ref inner exclusive tag))
    (htag : tag ≠ some staticLifetime) :
    ∃ required order, Lifetime.promised? types s = .ok (some required) ∧
      LifetimeOrder.ofSignature types s = .ok order ∧ ∀ call : Call,
        (∀ t ∈ tag, call.boundTo t = none) → ∃ lenders, s.lenders types call = .ok lenders ∧
          ∀ (arg : String) (p : Param) (name : String), (arg, p) ∈ call.args.zip s.params →
            Lifetime.ofParam? types p = .ok (some {name}) → order.isStatic name = false →
            order.satisfies {name} required = true →
            (arg ∈ lenders ∧ ∀ t ∈ tag, t = name) ∨
              ∃ t, tag = some t ∧ s.StandsBy name t ∧ (arg ∈ lenders ↔ ∃ q,
                (arg, q) ∈ call.args.zip s.params ∧
                Lifetime.ofParam? types q = .ok (some {t})) := by
  have htyped := WellFormed.checkSignature_typed hs
  obtain ⟨order, horder⟩ := ofSignature_total htyped
  cases tag with
  | none =>
    obtain ⟨lts, hlts⟩ := Lifetime.ofParams_total s.params htyped.params
    have hpromised : Lifetime.promised? types s = .ok (some lts) := by
      rw [Lifetime.promised?, hret]
      exact (Except.bind_of_ok hid).trans (Except.bind_of_ok hlts)
    refine ⟨lts, order, hpromised, horder, fun call hbound => ?_⟩
    obtain ⟨lenders, hl⟩ := lenders_total htyped call
    refine ⟨lenders, hl, fun arg p name hzip hp _ _ => Or.inl ⟨?_, nofun⟩⟩
    exact (mem_lenders_iff hret hid hbound hl).mpr ⟨p, {name}, hzip, hp, nofun⟩
  | some t =>
    have hpromised := promised?_of_tag hret hid rfl fun h => htag (congrArg some h)
    refine ⟨{t}, order, hpromised, horder, fun call hbound => ?_⟩
    obtain ⟨lenders, hl⟩ := lenders_total htyped call
    refine ⟨lenders, hl, fun arg p name hzip hp hmortal hsat => ?_⟩
    have hmem : arg ∈ lenders ↔ _ := mem_lenders_iff hret hid hbound hl
    by_cases hname : name = t
    · subst hname
      refine Or.inl ⟨hmem.mpr ⟨p, {name}, hzip, hp, ?_⟩, ?_⟩ <;> · rintro _ ⟨⟩; rfl
    · have htrans := LifetimeOrder.transitive_ofSignature horder
      obtain ⟨y, hy, -, hout⟩ :=
        LifetimeOrder.exists_outlived_of_satisfies htrans hsat (by simp) hmortal
      obtain rfl : t = y := by simpa using hy
      have hchain := LifetimeOrder.chain_of_outlives horder hmortal hout
      refine Or.inr ⟨t, rfl, ⟨hname, ?_⟩, hmem.trans ?_⟩
      · exact (Relation.reflTransGen_iff_eq_or_transGen.mp hchain).resolve_left (Ne.symm hname)
      · constructor
        · rintro ⟨q, lt, hq, hlt, heq⟩
          exact ⟨q, hq, by rw [hlt, heq t rfl]⟩
        · rintro ⟨q, hq, hlt⟩
          refine ⟨q, {t}, hq, hlt, ?_⟩
          rintro _ ⟨⟩
          rfl

end Signature

def TypeTable.tagged : TypeTable :=
  ⟨[.scalar "Int", .ref 1 false (some "'a"), .ref 1 false (some "'b"), .ref 1 false none]⟩

def Signature.pick : Signature where
  name := "pick"
  params := [{ name := "x", type := 2 }, { name := "y", type := 3 }]
  returns := some 2
  lifetimes := ["'a", "'b"]
  outlives := [("'b", "'a")]

def Function.pickSecond : Function :=
  (ofSignature .pick).addBlock
    { label := "entry", ending := some { terminator := .ret (some "y") } }

def Call.pick : Call where
  function := "pick"
  args := ["m", "n"]
  dest := some "r"

/-- The result of a choice is used after the second of the two numbers is gone. -/
def Function.outlivesPick : Function :=
  let inner :=
    (ofSignature { name := "outlivesPick" }).addScope { id := "inner", parent := some rootScope }
  let bound := [{ name := "m", type := 1 }, { name := "n", type := 1, scope := "inner" },
    { name := "r", type := 4 }].foldl addBinding inner
  bound.addBlock
    { label := "entry"
      body := [{ op := .init "m" none }, { op := .init "n" none }, { op := .call .pick },
        { op := .endScope "inner" },
        { op := .use "r" }]
      ending := some { terminator := .ret none } }

def Checker.picking : Checker where
  types := .tagged
  signatures := some (.ofList [.pick])

namespace Signature

theorem pick_wellFormed : WellFormed.checkSignature .tagged pick = .ok () := by decide

/-- Both parameters of the choice may be returned. -/
theorem pick_returnable : ∃ order, LifetimeOrder.ofSignature .tagged pick = .ok order ∧
    ∀ name ∈ ["'a", "'b"], order.isStatic name = false ∧ order.satisfies {name} {"'a"} = true := by
  have hrun : (do
      let order ← LifetimeOrder.ofSignature .tagged pick
      return (∀ name ∈ ["'a", "'b"], order.isStatic name = false ∧
        order.satisfies {name} {"'a"} = true : Bool) :
        Except Fault Bool) = .ok true := by decide +kernel
  obtain ⟨order, horder, hrun⟩ := Except.bind_inv hrun
  exact ⟨order, horder, of_decide_eq_true (Except.ok.inj hrun)⟩

/-- The argument of the first parameter is a lender; that of the second stands by a bound and is one
only if it is passed for the first as well. -/
theorem lenders_of_pick : ∃ lenders, pick.lenders .tagged .pick = .ok lenders ∧ "m" ∈ lenders ∧
    pick.StandsBy "'b" "'a" ∧ ("n" ∈ lenders ↔ ∃ q, ("n", q) ∈ Call.pick.args.zip pick.params ∧
      Lifetime.ofParam? .tagged q = .ok (some {"'a"})) := by
  have hid : TypeTable.tagged.fetch 2 = .ok (.ref 1 false (some "'a")) := rfl
  obtain ⟨required, order, hrequired, horder, hall⟩ :=
    lenders_of_returnable pick_wellFormed rfl hid (by decide)
  have hpromised : Lifetime.promised? .tagged pick = .ok (some {"'a"}) := rfl
  cases hrequired.symm.trans hpromised
  obtain ⟨order', horder', hmay⟩ := pick_returnable
  cases horder.symm.trans horder'
  obtain ⟨ha, hsata⟩ := hmay "'a" (by simp)
  obtain ⟨hb, hsatb⟩ := hmay "'b" (by simp)
  obtain ⟨lenders, hlenders, hargs⟩ := hall .pick (by decide)
  refine ⟨lenders, hlenders, ?_⟩
  rcases hargs "m" { name := "x", type := 2 } "'a" (by decide) rfl ha hsata
    with ⟨hm, -⟩ | ⟨t, ht, ⟨hne, -⟩, -⟩
  · rcases hargs "n" { name := "y", type := 3 } "'b" (by decide) rfl hb hsatb
      with ⟨-, hsame⟩ | ⟨t, ht, hstands, hn⟩
    · exact absurd (hsame "'a" rfl) (by decide)
    · cases ht
      exact ⟨hm, hstands, hn⟩
  · exact absurd (Option.some.inj ht) hne

/-- A body may return the second parameter of the choice, but a call does not take its argument for
a lender: the function that uses the result after the argument is gone is accepted, and so is the
body. -/
theorem pick_lender_missed : ∃ (order : LifetimeOrder) (callee caller : FunctionReport),
    WellFormed.checkSignature .tagged pick = .ok () ∧
    LifetimeOrder.ofSignature .tagged pick = .ok order ∧
    Lifetime.promised? .tagged pick = .ok (some {"'a"}) ∧
    Lifetime.ofParam? .tagged { name := "y", type := 3 } = .ok (some {"'b"}) ∧
    order.isStatic "'b" = false ∧
    order.satisfies {"'b"} {"'a"} = true ∧
    ("n", { name := "y", type := 3 }) ∈ Call.pick.args.zip pick.params ∧
    Call.pick.boundTo "'a" = none ∧ pick.lenders .tagged .pick = .ok ["m"] ∧
    Checker.picking.checkFunction .pickSecond = .ok callee ∧ callee.diagnostics = [] ∧
    Checker.picking.checkFunction .outlivesPick = .ok caller ∧ caller.diagnostics = [] := by
  have hrun : (do
      let callee ← Checker.picking.checkFunction .pickSecond
      let caller ← Checker.picking.checkFunction .outlivesPick
      return (callee.diagnostics = [] ∧ caller.diagnostics = [] : Bool) : Except Fault Bool) =
        .ok true := by
    decide +kernel
  obtain ⟨callee, hcallee, hrun⟩ := Except.bind_inv hrun
  obtain ⟨caller, hcaller, hrun⟩ := Except.bind_inv hrun
  obtain ⟨hfirst, hsecond⟩ := of_decide_eq_true (Except.ok.inj hrun)
  obtain ⟨order, horder, hmay⟩ := pick_returnable
  obtain ⟨hb, hsatb⟩ := hmay "'b" (by simp)
  exact ⟨order, callee, caller, pick_wellFormed, horder, rfl, rfl, hb, hsatb, by decide, rfl,
    by decide +kernel, hcallee, hfirst, hcaller, hsecond⟩

end Signature

end Ownership
