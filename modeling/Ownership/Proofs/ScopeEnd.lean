import Mathlib.Data.List.Forall2
import Ownership.Proofs.Handover
import Ownership.Proofs.Mirror
import Ownership.Proofs.UsePaths
import Ownership.Proofs.Validation

/-! # The end of a scope

When a scope ends, the bindings go from which one comes up to it from parent to parent, and nothing
changes for the others. The loans that stay are those on and by bindings that stay. What is reported
are the loans on bindings that go by references that stay and are live behind the point, each of
them once.
-/
namespace Ownership
open Std

namespace Function
variable {f : Function} {s x : String}

theorem encloses_iff : f.Encloses s x ↔ ∃ scope, f.scopes.get? x = some scope ∧
    scope.parent = some s := by
  constructor
  · rintro ⟨scope, hmem, hparent, rfl⟩
    exact ⟨scope, Registry.get?_eq_some_of_mem hmem, hparent⟩
  · rintro ⟨scope, hget, hparent⟩
    exact ⟨scope, Registry.mem_of_get?_eq_some hget, hparent, Registry.name_of_get?_eq_some hget⟩

/-- The scopes inside a scope are those from which one comes up to it. -/
theorem exists_above_iff : (∃ n, f.Above n x s) ↔ Relation.ReflTransGen f.Encloses s x := by
  constructor
  · rintro ⟨n, h⟩
    induction h with
    | here s => exact .refl
    | up hs hp _ ih => exact ih.tail (encloses_iff.mpr ⟨_, hs, hp⟩)
  · intro h
    induction h with
    | refl => exact ⟨0, .here s⟩
    | tail _ hstep ih =>
      obtain ⟨scope, hget, hparent⟩ := encloses_iff.mp hstep
      obtain ⟨n, habove⟩ := ih
      exact ⟨n + 1, .up hget hparent habove⟩

def GoesWith (f : Function) (s x : String) : Prop :=
  ∃ b ∈ f.bindings.entries, b.name = x ∧ ∃ n, f.Above n b.scope s

theorem drops_iff_goesWith : f.Drops s x ↔ f.GoesWith s x := by
  simp only [Drops, GoesWith, exists_above_iff, and_comm]

end Function

namespace FlowState

def knownOf (s : FlowState) (x : String) :
    Option OwnershipState × Option Names × Option Resources :=
  (s.states[x]?, s.provenance[x]?, s.resources[x]?)

theorem knownOf_foldl_drop (names : List String) (s : FlowState) (x : String) :
    (names.foldl .drop s).knownOf x = if x ∈ names then (some .dropped, none, none)
      else s.knownOf x := by
  rw [knownOf, foldl_drop_states, foldl_drop_provenance, foldl_drop_resources]
  split <;> rfl

end FlowState

/-- What comes of the elements of a list stands in the order of the elements that something comes
of. -/
theorem forall₂_filterMap {α β : Type} (g : α → Option β) (l : List α) :
    List.Forall₂ (fun b a => g a = some b) (l.filterMap g) (l.filter fun a => (g a).isSome) := by
  induction l with
  | nil => exact .nil
  | cons a l ih => cases h : g a <;> simp [h, ih]

namespace Liveness
variable {refs out live : Names} {b : Block} {x : String}

theorem mem_refs_of_mem_trail {after : Names} (hafter : ∀ x ∈ after, x ∈ refs)
    (body : List Instruction) (hlive : live ∈ trail refs after body) : ∀ x ∈ live, x ∈ refs := by
  induction body generalizing live with
  | nil =>
    rw [List.mem_singleton.mp hlive]
    exact hafter
  | cons i body ih =>
    rw [trail_cons] at hlive
    rcases List.mem_cons.mp hlive with rfl | hlive
    · exact mem_refs_of_before (ih (List.mem_of_getElem? (trail_head refs after body)))
    · exact ih hlive

theorem mem_refs_of_mem_points (hout : ∀ x ∈ out, x ∈ refs) (hlive : live ∈ points refs b out) :
    ∀ x ∈ live, x ∈ refs := by
  rcases List.mem_append.mp hlive with hlive | hlive
  · exact mem_refs_of_mem_trail (mem_refs_of_beforeEnding hout) b.body hlive
  · rw [List.mem_singleton.mp hlive]
    exact hout

end Liveness

/-- In the regions of a function, what is live at a point is a reference with a use ahead. -/
theorem Regions.Computed.isLiveAt_iff_usedAhead {f : Function} {types : TypeTable} {r : Regions}
    {l x : String} {b : Block} {n : Nat} (h : Computed f types r) (hb : f.blocks.get? l = some b) :
    r.isLiveAt x l n = true ↔ f.IsRef types x ∧ f.UsedAhead x ⟨l, n⟩ := by
  have hmarks : r.isLiveAt x l n = true ↔ Liveness.Marks f r.refs r.liveIn x ⟨l, n⟩ := by
    rw [h.isLiveAt_iff hb]
    simp [Liveness.Marks, hb]
  have hout : ∀ y ∈ Liveness.out r.liveIn b, y ∈ r.refs := by
    intro y hy
    obtain ⟨m, -, hm⟩ := Liveness.mem_out.mp hy
    exact Liveness.mem_refs_of_mem_liveIn h.liveIn hm
  constructor
  · intro hlive
    obtain ⟨live, hpoint, hx⟩ := (h.isLiveAt_iff hb).mp hlive
    have href : x ∈ r.refs :=
      Liveness.mem_refs_of_mem_points hout (List.mem_of_getElem? hpoint) x hx
    exact ⟨h.mem_refs.mp href, (Liveness.marks_iff_usedAhead href h.liveIn).mp (hmarks.mp hlive)⟩
  · rintro ⟨href, hused⟩
    exact hmarks.mpr ((Liveness.marks_iff_usedAhead (h.mem_refs.mpr href) h.liveIn).mpr hused)

namespace Site
variable {c : Site} {n : Nat} {x : String}

structure Behind (c : Site) (n : Nat) : Prop where
  block : c.function.blocks.contains c.location.block = true
  index : c.location.index = n
  regions : ∃ r policy, c.regions = some r ∧ Regions.compute c.function c.types policy = .ok r

theorem Behind.isLiveAfter_iff (h : c.Behind n) :
    c.isLiveAfter x = true ↔ c.function.IsRef c.types x ∧
    c.function.UsedAhead x ⟨c.location.block, n + 1⟩ := by
  obtain ⟨r, policy, hr, hcompute⟩ := h.regions
  obtain ⟨b, hb⟩ := Option.isSome_iff_exists.mp (Registry.isSome_get?.trans h.block)
  rw [isLiveAfter, hr, Option.all_some, h.index]
  exact (Regions.compute_inv hcompute).1.isLiveAt_iff_usedAhead (n := n + 1) hb

theorem dangling?_eq_some {gone : List String} {e : Loan × Span} {v : Violation} :
    c.dangling? gone e.1 e.2 = some v ↔ c.Dangles gone e.1 ∧
      ∃ ref, e.1.ref = some ref ∧ v = .outlivedBy e.1.place ref (e.1.explain e.2 c.nextUse) := by
  unfold dangling? Dangles
  cases e.1.ref with
  | none => simp
  | some ref => simp [and_assoc, eq_comm (a := v)]

theorem mem_bindingsOf_iff {scope : String} :
    x ∈ c.bindingsOf scope ↔ c.function.GoesWith scope x :=
  mem_bindingsOf.trans Function.drops_iff_goesWith

theorem knownOf_scopeEnded (c : Site) (scope : String) (s : FlowState) (x : String) :
    (c.scopeEnded scope s).knownOf x = if x ∈ c.bindingsOf scope then (some .dropped, none, none)
      else s.knownOf x :=
  FlowState.knownOf_foldl_drop ..

theorem getElem?_loans_scopeEnded (c : Site) (scope : String) (s : FlowState) (l : Loan)
    (span : Span) :
    (c.scopeEnded scope s).loans[l]? = some span ↔ s.loans[l]? = some span ∧
    ¬c.function.GoesWith scope l.place ∧
      ∀ ref, l.ref = some ref → ¬c.function.GoesWith scope ref := by
  rw [scopeEnded, FlowState.foldl_drop_loans, FlowState.keepLoans, Loans.getElem?_keep]
  cases l.ref <;> simp [mem_bindingsOf_iff, and_comm]

/-- The loans that leave references without their places when a scope ends, in the order in which
they are reported. -/
def danglingLoans (c : Site) (scope : String) (s : FlowState) : List (Loan × Span) :=
  (sortBy (fun a b => a.1.notAfter b.1) s.loans.toList).filter fun e =>
    (c.dangling? (c.bindingsOf scope) e.1 e.2).isSome

theorem mem_danglingLoans {scope : String} {s : FlowState} {l : Loan} {span : Span} :
    (l, span) ∈ c.danglingLoans scope s ↔ s.loans[l]? = some span ∧
    c.function.GoesWith scope l.place ∧
      ∃ ref, l.ref = some ref ∧ ¬c.function.GoesWith scope ref ∧ c.isLiveAfter ref = true := by
  have hdangles : (c.dangling? (c.bindingsOf scope) l span).isSome = true ↔
      c.Dangles (c.bindingsOf scope) l := by
    rw [← Option.ne_none_iff_isSome, ne_eq, dangling?_eq_none, not_not]
  rw [danglingLoans, List.mem_filter, mem_sortBy,
    ExtTreeMap.mem_toList_iff_getElem?_eq_some, hdangles]
  simp only [Dangles, mem_bindingsOf_iff]

/-- No loan is reported twice. -/
theorem nodup_danglingLoans (c : Site) (scope : String) (s : FlowState) :
    ((c.danglingLoans scope s).map Prod.fst).Nodup := by
  have hkeys : (s.loans.toList.map Prod.fst).Nodup := by
    rw [ExtTreeMap.map_fst_toList_eq_keys]
    exact ExtTreeMap.nodup_keys
  have hsorted :=
    ((sortBy_perm (fun a b => a.1.notAfter b.1) s.loans.toList).map Prod.fst).nodup_iff.mpr hkeys
  exact hsorted.sublist (List.filter_sublist.map Prod.fst)

/-- The end of a scope, from any state. All is forgotten of the bindings that go with the scope but
that they are dropped, and nothing changes for other names. The loans that stay are those on and by
names that stay. The violations are in order those of some loans, each of which stands there once:
the loans on bindings that go by references that stay and are live behind the point. At a point with
the regions of the function these are the references with a use ahead. -/
theorem dropScope_drops_and_reports (c : Site) (scope : String) (s : FlowState) :
    ∃ vs t, (c.dropScope scope).run s = .ok vs t ∧
      (∀ x, c.function.GoesWith scope x → t.knownOf x = (some .dropped, none, none)) ∧
      (∀ x, ¬c.function.GoesWith scope x → t.knownOf x = s.knownOf x) ∧
      (∀ (l : Loan) (span : Span), t.loans[l]? = some span ↔ s.loans[l]? = some span ∧
        ¬c.function.GoesWith scope l.place ∧
        ∀ ref, l.ref = some ref → ¬c.function.GoesWith scope ref) ∧
      (∃ es : List (Loan × Span), (es.map Prod.fst).Nodup ∧
        (∀ l span, (l, span) ∈ es ↔ s.loans[l]? = some span ∧ c.function.GoesWith scope l.place ∧
          ∃ ref, l.ref = some ref ∧ ¬c.function.GoesWith scope ref ∧ c.isLiveAfter ref = true) ∧
        List.Forall₂ (fun (v : Violation) (e : Loan × Span) => v.kind = .danglingReference ∧
          ∃ ref, e.1.ref = some ref ∧
            v = .outlivedBy e.1.place ref (e.1.explain e.2 c.nextUse)) vs es) ∧
      ∀ n, c.Behind n → ∀ ref, c.isLiveAfter ref = true ↔
        c.function.IsRef c.types ref ∧ c.function.UsedAhead ref ⟨c.location.block, n + 1⟩ := by
  refine ⟨_, _, dropScope_iff.mpr ⟨rfl, rfl⟩, fun x hx => ?_, fun x hx => ?_,
    c.getElem?_loans_scopeEnded scope s,
    ⟨c.danglingLoans scope s, c.nodup_danglingLoans scope s, fun l span => mem_danglingLoans, ?_⟩,
    fun n h ref => h.isLiveAfter_iff⟩
  · rw [knownOf_scopeEnded, if_pos (mem_bindingsOf_iff.mpr hx)]
  · rw [knownOf_scopeEnded, if_neg fun hmem => hx (mem_bindingsOf_iff.mp hmem)]
  · refine (forall₂_filterMap _ _).imp fun v e hv => ⟨dangling?_kind hv, ?_⟩
    exact (dangling?_eq_some.mp hv).2

end Site

/-- A number in a scope inside another one is lent to a reference that is used after both scopes. -/
def Function.nestedScopes : Function :=
  ((ofParts "nestedScopes"
    [{ name := "r", type := 2 }, { name := "x", type := 1, scope := "inner" }]
    [{ label := "entry",
       body := [{ op := .init "x" none }, { op := .borrow "x" .shared "r" },
         { op := .endScope "outer" }, { op := .use "r" }],
       ending := some { terminator := .ret none } }]).addScope
    { id := "outer", parent := some rootScope }).addScope { id := "inner", parent := some "outer" }

namespace Site

def nestedLoan : Loan where
  place := "x"
  kind := .shared
  ref := some "r"
  origin := ⟨"nestedScopes", "entry", 1⟩

def nestedEnd (r : Regions) : Site where
  function := .nestedScopes
  types := .basic
  regions := some r
  location := ⟨"nestedScopes", "entry", 2⟩

/-- The outer scope ends while the number in the inner one is lent: the number goes, and the loan is
reported, since the reference has a use ahead. -/
theorem dropScope_nestedScopes : ∃ (r : Regions) (s t : FlowState) (vs : List Violation),
    (nestedEnd r).Behind 2 ∧ s.loans[nestedLoan]? = some .unknown ∧
    ((nestedEnd r).dropScope "outer").run s = .ok vs t ∧
    t.knownOf "x" = (some .dropped, none, none) ∧ t.loans[nestedLoan]? = none ∧ vs ≠ [] ∧
    Function.nestedScopes.UsedAhead "r" ⟨"entry", 3⟩ := by
  have hrun : (do
      let r ← Regions.compute .nestedScopes .basic .lastUse
      return r.isLiveAfter "r" "entry" 2 : Except Fault Bool) = .ok true := by decide +kernel
  obtain ⟨r, hr, hlive⟩ := Except.bind_inv hrun
  have hlive : (nestedEnd r).isLiveAfter "r" = true := Except.ok.inj hlive
  have hblock : Function.nestedScopes.blocks.contains "entry" = true := by decide
  have hbehind : (nestedEnd r).Behind 2 := ⟨hblock, rfl, r, .lastUse, rfl, hr⟩
  have hbinding : { name := "x", type := 1, scope := "inner" } ∈
      Function.nestedScopes.bindings.entries := by decide
  have hgoes : Function.nestedScopes.GoesWith "outer" "x" :=
    ⟨_, hbinding, rfl, 1, .up rfl rfl (.here "outer")⟩
  have hstays : ¬Function.nestedScopes.GoesWith "outer" "r" :=
    (mem_bindingsOf_iff (c := .atEntry .nestedScopes .basic none)).not.mp (by decide)
  have hloan : (({} : FlowState).addLoan nestedLoan .unknown).loans[nestedLoan]? =
      some .unknown := by
    decide +kernel
  obtain ⟨vs, t, hdrop, hgone, -, hloans, ⟨es, -, hes, hvs⟩, hused⟩ :=
    dropScope_drops_and_reports (nestedEnd r) "outer" (({} : FlowState).addLoan nestedLoan .unknown)
  have hmem : (nestedLoan, Span.unknown) ∈ es :=
    (hes nestedLoan .unknown).mpr ⟨hloan, hgoes, "r", rfl, hstays, hlive⟩
  refine ⟨r, _, t, vs, hbehind, hloan, hdrop, hgone "x" hgoes, ?_, ?_,
    ((hused 2 hbehind "r").mp hlive).2⟩
  · rw [Option.eq_none_iff_forall_ne_some]
    exact fun span hspan => ((hloans nestedLoan span).mp hspan).2.1 hgoes
  · rintro rfl
    cases hvs
    cases hmem

end Site

end Ownership
