import Mathlib.Data.List.Nodup
import Ownership.Proofs.DeclaredOrder

/-! # Lifetimes without a tag

A reference parameter without a lifetime gets one that is named after it. A signature may declare a
lifetime of that very name, and then the two are one: the parameter stands for whatever the declared
lifetime stands for. If no lifetime of that name is declared, then the bounds of a checked signature
do not mention it either. So the lifetime of the parameter outlives that of no other parameter, and
the parameter cannot be returned where the lifetime of another one is promised.
-/
namespace Ownership
open Std

namespace Names
variable {n m : String}

theorem mem_singleton : m ∈ ({n} : Names) ↔ n = m := by simp

theorem toList_singleton (n : String) : ({n} : Names).toList = [n] := by
  obtain ⟨m, hm⟩ : ∃ m, ({n} : Names).toList = [m] := by
    rw [← List.length_eq_one_iff, ExtTreeSet.length_toList]
    simp [ExtTreeSet.size_insert]
  have hmem : m ∈ ({n} : Names).toList := by rw [hm]; exact List.mem_singleton_self m
  obtain rfl := mem_singleton.mp (ExtTreeSet.mem_toList.mp hmem)
  exact hm

end Names

namespace Lifetime
variable {types : TypeTable} {p : Param} {inner : TypeId} {exclusive : Bool} {tag : Option String}

theorem anonymous_inj {p q : String} (h : anonymous p = anonymous q) : p = q :=
  (String.append_right_inj "'_").mp h

theorem anonymous_ne_static (p : String) : anonymous p ≠ staticLifetime := by
  intro h
  have hchars := congrArg String.toList h
  simp [anonymous, staticLifetime] at hchars

theorem render_singleton (n : String) : render {n} = n := by
  rw [render, Names.toList_singleton, if_neg (by simp)]
  simp

theorem ofParam?_of_untagged (h : types.fetch p.type = .ok (.ref inner exclusive none)) :
    ofParam? types p = .ok (some {anonymous p.name}) := Except.bind_of_ok h

/-- The lifetime of a reference parameter has at most one name: the one of its tag, or else the one
that is made up. -/
theorem ofParam?_of_ref (h : types.fetch p.type = .ok (.ref inner exclusive tag)) :
    ∃ lt, ofParam? types p = .ok (some lt) ∧ ∀ n ∈ lt, n = anonymous p.name ∨ tag = some n ∧
      n ≠ staticLifetime := by
  cases tag with
  | none =>
    exact ⟨_, ofParam?_of_untagged h, fun n hn => .inl (Names.mem_singleton.mp hn).symm⟩
  | some t =>
    by_cases hstatic : t = staticLifetime
    · refine ⟨static, (Except.bind_of_ok h).trans (by simp [hstatic, pure, Except.pure]),
        fun n hn => ?_⟩
      simp [static] at hn
    · refine ⟨{if t.isEmpty then anonymous p.name else t},
        (Except.bind_of_ok h).trans (by simp [hstatic, pure, Except.pure]), fun n hn => ?_⟩
      obtain rfl := Names.mem_singleton.mp hn
      split
      · exact .inl rfl
      · exact .inr ⟨rfl, hstatic⟩

end Lifetime

structure Signature.NamesDeclared (types : TypeTable) (s : Signature) : Prop where
  bounds : ∀ e ∈ s.outlives, ∀ n ∈ [e.1, e.2], n = staticLifetime ∨ n ∈ s.lifetimes
  distinct : (s.params.map Param.name).Nodup
  tags : ∀ p ∈ s.params, ∀ d, types.fetch p.type = .ok d → ∀ n ∈ d.lifetime?, n = staticLifetime ∨
    n ∈ s.lifetimes

namespace WellFormed
variable {types : TypeTable} {s : Signature}

theorem checkParams_declared {ps : List Param} {seen lts : List String}
    (h : checkParams types s ps seen = .ok lts) :
    (ps.map Param.name).Nodup ∧ (∀ p ∈ ps, p.name ∉ seen) ∧
      ∀ p ∈ ps, ∀ d, types.fetch p.type = .ok d → ∀ n ∈ d.lifetime?, n = staticLifetime ∨
        n ∈ s.lifetimes := by
  induction ps generalizing seen lts with
  | nil => simp
  | cons p ps ih =>
    obtain ⟨_, hnew, h⟩ := Except.bind_inv h
    have hnew : p.name ∉ seen := by simpa using ensure_eq_ok.mp hnew
    obtain ⟨lt, hlt, h⟩ := Except.bind_inv h
    obtain ⟨d, hd, hlt⟩ := Except.bind_inv hlt
    cases hlt
    obtain ⟨hdeclared, rest, hrest⟩ : (∀ n ∈ d.lifetime?, n = staticLifetime ∨ n ∈ s.lifetimes) ∧
        ∃ rest, checkParams types s ps (p.name :: seen) = .ok rest := by
      cases hn : d.lifetime? with
      | none =>
        rw [hn] at h
        exact ⟨nofun, lts, h⟩
      | some n =>
        rw [hn] at h
        obtain ⟨_, hdeclared, h⟩ := Except.bind_inv h
        obtain ⟨rest, hrest, -⟩ := Except.bind_inv h
        refine ⟨?_, rest, hrest⟩
        rintro _ ⟨⟩
        simpa using ensure_eq_ok.mp hdeclared
    obtain ⟨hnodup, hunseen, htags⟩ := ih hrest
    refine ⟨List.nodup_cons.mpr ⟨fun hmem => ?_, hnodup⟩,
      List.forall_mem_cons.mpr ⟨hnew, fun q hq hmem => ?_⟩,
      List.forall_mem_cons.mpr ⟨fun d' hd' => ?_, htags⟩⟩
    · obtain ⟨q, hq, hname⟩ := List.mem_map.mp hmem
      exact hunseen q hq (hname ▸ List.mem_cons_self)
    · exact hunseen q hq (List.mem_cons_of_mem _ hmem)
    · cases hd.symm.trans hd'
      exact hdeclared

theorem checkSignature_declared (h : checkSignature types s = .ok ()) : s.NamesDeclared types := by
  obtain ⟨_, hbounds, h⟩ := Except.bind_inv h
  obtain ⟨lts, hparams, -⟩ := Except.bind_inv h
  obtain ⟨hdistinct, -, htags⟩ := checkParams_declared hparams
  refine ⟨fun e he n hn => ?_, hdistinct, htags⟩
  have hone := ensure_eq_ok.mp (Except.forM_eq_ok.mp (Except.forM_eq_ok.mp hbounds e he) n hn)
  simpa using hone

end WellFormed

namespace Signature
variable {types : TypeTable} {s : Signature} {o : LifetimeOrder} {x y : String} {lt : Lifetime}

/-- The bounds of the signature let a name stand for a lifetime: it is bounded by the static
lifetime, or a chain of bounds leads to a name of the lifetime that is not. -/
def Reaches (s : Signature) (x : String) (lt : Lifetime) : Prop :=
  (x, staticLifetime) ∈ s.outlives ∨
    ∃ y ∈ lt, y ≠ staticLifetime ∧ (y, staticLifetime) ∉ s.outlives ∧ s.Leads x y

section Computed
variable (h : LifetimeOrder.ofSignature types s = .ok o)
include h

theorem isStatic_ofSignature_iff :
    o.isStatic x = true ↔ x = staticLifetime ∨ (x, staticLifetime) ∈ s.outlives := by
  obtain ⟨names, -, h⟩ := Except.bind_inv h
  cases h
  simp [LifetimeOrder.isStatic, LifetimeOrder.ofBounds]

theorem satisfies_singleton_iff (hx : x ≠ staticLifetime) :
    o.satisfies {x} lt = true ↔ s.Reaches x lt := by
  have hmortal : ∀ {n}, o.isStatic n = false ↔ n ≠ staticLifetime ∧
      (n, staticLifetime) ∉ s.outlives := by
    intro n
    rw [Bool.eq_false_iff, ne_eq, isStatic_ofSignature_iff h, not_or]
  rw [LifetimeOrder.satisfies_iff (LifetimeOrder.transitive_ofSignature h), Reaches]
  simp only [LifetimeOrder.mem_mortal, hmortal, outlives_ofSignature_iff h]
  constructor
  · intro hall
    by_cases hstatic : (x, staticLifetime) ∈ s.outlives
    · exact .inl hstatic
    · obtain ⟨y, ⟨hy, hy'⟩, hxy⟩ := hall x ⟨Names.mem_singleton.mpr rfl, hx, hstatic⟩
      exact .inr ⟨y, hy, hy'.1, hy'.2, (hxy.resolve_left hx).resolve_left hstatic⟩
  · rintro hreaches n ⟨hn, -, hn'⟩
    obtain rfl := Names.mem_singleton.mp hn
    obtain ⟨y, hy, hy', hy'', hxy⟩ := hreaches.resolve_left hn'
    exact ⟨y, ⟨hy, hy', hy''⟩, .inr (.inr hxy)⟩

/-- A single name that is not static bounds its lifetime. -/
theorem normalize_singleton (hx : o.isStatic x = false) : o.normalize {x} = {x} := by
  have hmem : ∀ {n}, n ∈ o.mortal {x} ↔ x = n := by
    intro n
    rw [LifetimeOrder.mem_mortal, Names.mem_singleton]
    exact ⟨And.left, fun hn => ⟨hn, hn ▸ hx⟩⟩
  have hbounded := LifetimeOrder.boundedBy_normalize (LifetimeOrder.transitive_ofSignature h) {x}
  apply ExtTreeSet.ext_mem
  intro n
  rw [Names.mem_singleton]
  constructor
  · exact fun hn => hmem.mp (hbounded.subset n hn)
  · rintro rfl
    obtain ⟨y, hy, -⟩ := hbounded.outlived x (hmem.mpr rfl)
    rwa [← hmem.mp (hbounded.subset y hy)] at hy

end Computed

section Undeclared
variable (hs : s.NamesDeclared types) (hx : x ∉ s.lifetimes) (hstatic : x ≠ staticLifetime)
include hs hx hstatic

theorem not_bounded_of_undeclared : (x, y) ∉ s.outlives := fun hxy =>
  (hs.bounds (x, y) hxy x (by simp)).elim hstatic hx

theorem Leads.eq_of_undeclared (h : s.Leads x y) : y = x := by
  rcases h.cases_head with heq | ⟨z, ⟨hxz, -⟩, -⟩
  · exact heq.symm
  · exact absurd hxz (not_bounded_of_undeclared hs hx hstatic)

end Undeclared

section Params
variable {p q : Param} {inner inner' : TypeId} {exclusive exclusive' : Bool}
    {tag : Option String} {c : Site}
variable {u : FlowState} {required : Lifetime}

/-- The name that an untagged parameter gets stands for the lifetime of another parameter only if it
is declared. -/
theorem declared_of_reaches (hs : s.NamesDeclared types) (hp : p ∈ s.params) (hq : q ∈ s.params)
    (hpq : p ≠ q) (hfetch : types.fetch q.type = .ok (.ref inner exclusive tag))
    (hlt : Lifetime.ofParam? types q = .ok (some lt))
    (h : s.Reaches (Lifetime.anonymous p.name) lt) : Lifetime.anonymous p.name ∈ s.lifetimes := by
  by_contra hfresh
  have hstatic := Lifetime.anonymous_ne_static p.name
  rcases h with hbound | ⟨n, hn, -, -, hleads⟩
  · exact not_bounded_of_undeclared hs hfresh hstatic hbound
  · obtain rfl := hleads.eq_of_undeclared hs hfresh hstatic
    obtain ⟨lt', hlt', hname⟩ := Lifetime.ofParam?_of_ref hfetch
    cases hlt.symm.trans hlt'
    rcases hname _ hn with hmade | ⟨htag, -⟩
    · exact hpq (List.inj_on_of_nodup_map hs.distinct hp hq (Lifetime.anonymous_inj hmade))
    · exact (hs.tags q hq _ hfetch _ htag).elim hstatic hfresh

/-- A reference to no local owner whose lifetime does not stand for the promised one is returned too
early. -/
theorem returnReference_tooShort {value : String}
    (hown : ∀ l ∈ u.loans, l.ref = some value → c.isRef l.place = .ok true)
    (hpromised : Lifetime.promised? c.types c.function.signature = .ok (some required))
    (horder : LifetimeOrder.ofSignature c.types c.function.signature = .ok o)
    (hsat : o.satisfies (o.normalize (u.provenanceOf value)) required = false) :
    Checker.returnReference c value u =
      .ok [.returnedTooShort value (Lifetime.render (o.normalize (u.provenanceOf value)))
      c.function.name (Lifetime.render (o.normalize required))] := by
  have hnone := Checker.filterM_owners_eq_nil.mpr
    ((Checker.forall_held_isRef_iff fun a b => (compare a.1.origin b.1.origin).isLE).mpr hown)
  refine (Except.bind_of_ok hnone).trans
    ((Except.bind_of_ok hpromised).trans ((Except.bind_of_ok horder).trans ?_))
  simp [hsat, pure, Except.pure]

/-- Take a checked signature, a reference parameter without a lifetime and another reference
parameter. The first may stand for the second just if the name that it gets is declared as a
lifetime, and the bounds on that one let it. If the name is not declared, the first never outlives
the second; and where the lifetime of the second is promised and nothing else is wrong with
returning the first, it is returned too early. -/
theorem untagged_param_apart (hs : WellFormed.checkSignature types s = .ok ()) (hp : p ∈ s.params)
    (hq : q ∈ s.params) (hpq : p ≠ q) (hpt : types.fetch p.type = .ok (.ref inner exclusive none))
    (hqt : types.fetch q.type = .ok (.ref inner' exclusive' tag)) :
    ∃ order lp lq, LifetimeOrder.ofSignature types s = .ok order ∧
      Lifetime.ofParam? types p = .ok (some lp) ∧ Lifetime.ofParam? types q = .ok (some lq) ∧
      (order.satisfies lp lq = true ↔
        Lifetime.anonymous p.name ∈ s.lifetimes ∧ s.Reaches (Lifetime.anonymous p.name) lq) ∧
      (Lifetime.anonymous p.name ∉ s.lifetimes → order.satisfies lp lq = false ∧
        ∀ (c : Site) (u : FlowState), c.types = types → c.function.signature = s →
          Lifetime.promised? types s = .ok (some lq) → u.provenanceOf p.name = lp →
          c.isRef p.name = .ok true →
          c.readViolation u p.name "return" = none →
          (∀ l ∈ u.loans, l.ref = some p.name → c.isRef l.place = .ok true) →
          (Checker.applyReturn c p.name).run u =
            .ok [.returnedTooShort p.name (Lifetime.anonymous p.name) s.name
            (Lifetime.render (order.normalize lq))] u) := by
  have hdeclared := WellFormed.checkSignature_declared hs
  have hstatic := Lifetime.anonymous_ne_static p.name
  obtain ⟨order, horder⟩ := ofSignature_total (WellFormed.checkSignature_typed hs)
  obtain ⟨lq, hlq, -⟩ := Lifetime.ofParam?_of_ref hqt
  have hsat : order.satisfies {Lifetime.anonymous p.name} lq = true ↔
      s.Reaches (Lifetime.anonymous p.name) lq :=
    satisfies_singleton_iff horder hstatic
  have hreaches := declared_of_reaches hdeclared hp hq hpq hqt hlq
  refine ⟨order, _, lq, horder, Lifetime.ofParam?_of_untagged hpt, hlq, ?_, fun hfresh => ?_⟩
  · rw [hsat]
    exact ⟨fun h => ⟨hreaches h, h⟩, And.right⟩
  · have hfalse : order.satisfies {Lifetime.anonymous p.name} lq = false :=
      Bool.eq_false_iff.mpr fun h => hfresh (hreaches (hsat.mp h))
    refine ⟨hfalse, ?_⟩
    rintro c u rfl rfl hpromised hprovenance href hread hown
    have hmortal : order.isStatic (Lifetime.anonymous p.name) = false := by
      rw [Bool.eq_false_iff, ne_eq, isStatic_ofSignature_iff horder, not_or]
      exact ⟨hstatic, not_bounded_of_undeclared hdeclared hfresh hstatic⟩
    have hnormal := normalize_singleton horder hmortal
    have hreturned :=
      returnReference_tooShort hown hpromised horder (by rw [hprovenance, hnormal, hfalse])
    rw [hprovenance, hnormal, Lifetime.render_singleton] at hreturned
    exact Checker.applyReturn_iff.mpr (.inl ⟨href, rfl, .inr ⟨hread, hreturned⟩⟩)

end Params

def prefer : Signature where
  name := "prefer"
  params := [{ name := "x", type := 4 }, { name := "y", type := 2 }]
  returns := some 2
  lifetimes := ["'a"]

/-- The reference without a lifetime, as it comes in, is returned where the lifetime of the other
one is promised. -/
theorem untagged_param_apart_prefer : ∃ (order : LifetimeOrder) (c : Site) (u : FlowState),
    WellFormed.checkSignature .tagged prefer = .ok () ∧
    LifetimeOrder.ofSignature .tagged prefer = .ok order ∧
    Lifetime.anonymous "x" ∉ prefer.lifetimes ∧ c.function = .ofSignature prefer ∧
    Checker.entryState { types := .tagged } c.function = .ok u ∧
    order.satisfies {"'_x"} {"'a"} = false ∧
    (Checker.applyReturn c "x").run u =
      .ok [.returnedTooShort "x" "'_x" "prefer" (Lifetime.render (order.normalize {"'a"}))] u := by
  have hrun : (do
      let u ← Checker.entryState { types := .tagged } (.ofSignature prefer)
      let c := Site.atEntry (.ofSignature prefer) .tagged none
      return (u.provenanceOf "x" = {"'_x"} ∧ c.readViolation u "x" "return" = none ∧
        u.loans.toList = [] : Bool) : Except Fault Bool) = .ok true := by decide +kernel
  obtain ⟨u, hu, hrun⟩ := Except.bind_inv hrun
  obtain ⟨hprovenance, hread, hloans⟩ := of_decide_eq_true (Except.ok.inj hrun)
  have hs : WellFormed.checkSignature .tagged prefer = .ok () := by decide
  have hx : TypeTable.tagged.fetch 4 = .ok (.ref 1 false none) := rfl
  have hy : TypeTable.tagged.fetch 2 = .ok (.ref 1 false (some "'a")) := rfl
  obtain ⟨order, lx, ly, horder, hlx, hly, -, happart⟩ :=
    untagged_param_apart hs (p := { name := "x", type := 4 })
      (q := { name := "y", type := 2 }) (by decide) (by decide) (by decide) hx hy
  have hfirst : Lifetime.ofParam? .tagged { name := "x", type := 4 } = .ok (some {"'_x"}) := rfl
  have hsecond : Lifetime.ofParam? .tagged { name := "y", type := 2 } = .ok (some {"'a"}) := rfl
  cases hlx.symm.trans hfirst
  cases hly.symm.trans hsecond
  obtain ⟨hfalse, hreturn⟩ := happart (by decide)
  refine ⟨order, .atEntry (.ofSignature prefer) .tagged none, u, hs, horder, by decide, rfl,
    hu, hfalse, ?_⟩
  refine hreturn _ u rfl rfl rfl hprovenance (by decide) hread fun l hl => ?_
  exact absurd hl (Loans.toList_eq_nil.mp hloans l)

end Signature

/-- A number type, the references to it without a lifetime, and those with a lifetime that is named
as if it were made up. -/
def TypeTable.madeUp : TypeTable := ⟨[.scalar "Int", .ref 1 false none, .ref 1 false (some "'_x")]⟩

def Signature.claim : Signature where
  name := "claim"
  params := [{ name := "x", type := 2 }, { name := "y", type := 3 }]
  returns := some 3
  lifetimes := ["'_x"]

def Function.claimFirst : Function :=
  (ofSignature .claim).addBlock
    { label := "entry", ending := some { terminator := .ret (some "x") } }

/-- The reference without a lifetime stands for the other one, and may be returned where the
lifetime of that one is promised. -/
theorem Signature.claim_first_stands : ∃ (order : LifetimeOrder) (report : FunctionReport),
    WellFormed.checkSignature .madeUp claim = .ok () ∧
    LifetimeOrder.ofSignature .madeUp claim = .ok order ∧
    TypeTable.madeUp.fetch 2 = .ok (.ref 1 false none) ∧
    Lifetime.ofParam? .madeUp { name := "x", type := 2 } = .ok (some {"'_x"}) ∧
    Lifetime.ofParam? .madeUp { name := "y", type := 3 } = .ok (some {"'_x"}) ∧
    order.satisfies {"'_x"} {"'_x"} = true ∧ Lifetime.promised? .madeUp claim = .ok (some {"'_x"}) ∧
    Checker.checkFunction { types := .madeUp } .claimFirst = .ok report ∧
    report.diagnostics = [] := by
  have hrun : (do
      let order ← LifetimeOrder.ofSignature .madeUp claim
      let report ← Checker.checkFunction { types := .madeUp } .claimFirst
      return (order.satisfies {"'_x"} {"'_x"} = true ∧ report.diagnostics = [] : Bool) :
        Except Fault Bool) = .ok true := by
    decide +kernel
  obtain ⟨order, horder, hrun⟩ := Except.bind_inv hrun
  obtain ⟨report, hreport, hrun⟩ := Except.bind_inv hrun
  obtain ⟨hsat, hsilent⟩ := of_decide_eq_true (Except.ok.inj hrun)
  exact ⟨order, report, by decide, horder, rfl, rfl, rfl, hsat, rfl, hreport, hsilent⟩

end Ownership
