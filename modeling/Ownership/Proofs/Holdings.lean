import Mathlib.Logic.Function.Iterate
import Ownership.Proofs.Inside

/-! # What operations do to the resources of owners

An owning binding that has a value may hold one of several resources. An operation leaves each owner
what it held, hands the resources of one owner to another, or gives an owner the resource it
creates; what its point created before is older then, whoever holds it. No two owners get what one
owner held.
-/
namespace Ownership
open Std

namespace Resource
variable {q q' : Resource} {origin : Location} {limit : Int}

def agedAt (origin : Location) (limit : Int) (q : Resource) : Resource :=
  if q.origin = origin then q.aged limit else q

@[simp] theorem agedAt_origin : (q.agedAt origin limit).origin = q.origin := by
  unfold agedAt
  split <;> rfl

theorem agedAt_of_ne (h : q.origin ≠ origin) : q.agedAt origin limit = q := if_neg h

theorem agedAt_generation (h : q.origin = origin) :
    (q.agedAt origin limit).generation = min (q.generation + 1) limit := by
  rw [agedAt, if_pos h]
  rfl

/-- Two resources that age into one are one already, or their ages are no longer told apart. -/
theorem agedAt_eq (h : q.agedAt origin limit = q'.agedAt origin limit) :
    q = q' ∨ (q.agedAt origin limit).generation = limit := by
  have horigin : q.origin = q'.origin := by rw [← agedAt_origin, h, agedAt_origin]
  by_cases ho : q.origin = origin
  · have hgen := congrArg Resource.generation h
    rw [agedAt_generation ho, agedAt_generation (horigin ▸ ho)] at hgen
    rw [agedAt_generation ho]
    by_cases hsame : q.generation = q'.generation
    · left
      cases q
      cases q'
      simp_all
    · right
      omega
  · left
    rwa [agedAt_of_ne ho, agedAt_of_ne (horigin ▸ ho)] at h

theorem agedAt_of_limit (h : q.generation = limit) :
    (q.agedAt origin limit).generation = limit := by
  by_cases ho : q.origin = origin
  · rw [agedAt_generation ho]
    omega
  · rwa [agedAt_of_ne ho]

theorem agedAt_nonneg (h : 0 ≤ q.generation) (hl : 0 ≤ limit) :
    0 ≤ (q.agedAt origin limit).generation := by
  by_cases ho : q.origin = origin
  · rw [agedAt_generation ho]
    omega
  · rwa [agedAt_of_ne ho]

theorem agedAt_le : (q.agedAt origin limit).generation ≤ q.generation + 1 := by
  by_cases ho : q.origin = origin
  · rw [agedAt_generation ho]
    omega
  · rw [agedAt_of_ne ho]
    omega

section Iterate
variable {n : Nat}

@[simp] theorem agedAt_iterate_origin : ((agedAt origin limit)^[n] q).origin = q.origin := by
  induction n with
  | zero => rfl
  | succ n ih => rw [Function.iterate_succ_apply', agedAt_origin, ih]

theorem agedAt_iterate_of_ne (h : q.origin ≠ origin) : (agedAt origin limit)^[n] q = q :=
  Function.iterate_fixed (agedAt_of_ne h) n

theorem agedAt_iterate_eq (h : (agedAt origin limit)^[n] q = (agedAt origin limit)^[n] q') :
    q = q' ∨ ((agedAt origin limit)^[n] q).generation = limit := by
  induction n with
  | zero => exact Or.inl h
  | succ n ih =>
    rw [Function.iterate_succ_apply', Function.iterate_succ_apply'] at h
    rw [Function.iterate_succ_apply']
    rcases agedAt_eq h with h | h
    · exact (ih h).imp_right agedAt_of_limit
    · exact Or.inr h

theorem agedAt_iterate_of_limit (h : q.generation = limit) :
    ((agedAt origin limit)^[n] q).generation = limit := by
  induction n with
  | zero => exact h
  | succ n ih =>
    rw [Function.iterate_succ_apply']
    exact agedAt_of_limit ih

theorem agedAt_iterate_nonneg (h : 0 ≤ q.generation) (hl : 0 ≤ limit) :
    0 ≤ ((agedAt origin limit)^[n] q).generation := by
  induction n with
  | zero => exact h
  | succ n ih =>
    rw [Function.iterate_succ_apply']
    exact agedAt_nonneg ih hl

theorem agedAt_iterate_le : ((agedAt origin limit)^[n] q).generation ≤ q.generation + n := by
  induction n with
  | zero => simp
  | succ n ih =>
    rw [Function.iterate_succ_apply']
    have hle : (agedAt origin limit ((agedAt origin limit)^[n] q)).generation ≤ _ := agedAt_le
    omega

/-- What a point created before is not what it creates. -/
theorem agedAt_iterate_ne_fresh (hn : 0 < n) (h : 0 ≤ q.generation) (hl : 0 < limit) :
    (agedAt origin limit)^[n] q ≠ { origin } := by
  obtain ⟨n, rfl⟩ := Nat.exists_eq_add_one.mpr hn
  intro heq
  have ho : ((agedAt origin limit)^[n] q).origin = origin := by
    have horigin := congrArg Resource.origin heq
    rwa [agedAt_iterate_origin] at horigin ⊢
  have hold : 0 ≤ ((agedAt origin limit)^[n] q).generation :=
    agedAt_iterate_nonneg h (Int.le_of_lt hl)
  have hgen := congrArg Resource.generation heq
  rw [Function.iterate_succ_apply', agedAt_generation ho] at hgen
  have hfresh : ({ origin } : Resource).generation = 0 := rfl
  omega

end Iterate

end Resource

namespace FlowState
variable {T : String → Prop} {s t u w : FlowState} {x dest : String} {q : Resource}
    {origin : Location} {limit : Int}
variable {n : Nat} {source : String → Option String}

def held (s : FlowState) (x : String) : Resources := s.resources.getD x ∅

theorem held_congr (h : t.resources = s.resources) (x : String) : t.held x = s.held x := by
  rw [held, h, held]

theorem mem_held_iff : q ∈ s.held x ↔ ∃ u, s.resources[x]? = some u ∧ q ∈ u := mem_getD_iff

theorem mem_held_mint : q ∈ (s.mint dest origin limit).held x ↔
    if dest = x then q = { origin } else ∃ q' ∈ s.held x, q = q'.agedAt origin limit := by
  rw [mem_held_iff, getElem?_mint]
  split
  · simp [eq_comm (a := q)]
  · simp only [Option.map_eq_some_iff, mem_held_iff]
    constructor
    · rintro ⟨_, ⟨held, hheld, rfl⟩, hq⟩
      obtain ⟨q', hq', rfl⟩ := mem_ageResources.mp hq
      exact ⟨q', ⟨held, hheld, hq'⟩, rfl⟩
    · rintro ⟨q', ⟨held, hheld, hq'⟩, rfl⟩
      exact ⟨_, ⟨held, hheld, rfl⟩, mem_ageResources.mpr ⟨q', hq', rfl⟩⟩

def Holder (T : String → Prop) (s : FlowState) (x : String) : Prop := T x ∧ s.stateOf x = .owned

structure Keeps (T : String → Prop) (s t : FlowState) : Prop where
  holders : ∀ x, t.Holder T x → s.Holder T x
  same : ∀ x, t.Holder T x → t.held x = s.held x
  fewer : ∀ x, ∀ q ∈ t.held x, q ∈ s.held x

theorem Keeps.refl (s : FlowState) : Keeps T s s := ⟨fun _ h => h, fun _ _ => rfl, fun _ _ h => h⟩

theorem Keeps.trans (hst : Keeps T s t) (htu : Keeps T t u) : Keeps T s u where
  holders x hx := hst.holders x (htu.holders x hx)
  same x hx := (htu.same x hx).trans (hst.same x (htu.holders x hx))
  fewer x q hq := hst.fewer x q (htu.fewer x q hq)

theorem Keeps.of_resources (hstate : ∀ x, T x → t.stateOf x = .owned → s.stateOf x = .owned)
    (hres : t.resources = s.resources) : Keeps T s t where
  holders x hx := ⟨hx.1, hstate x hx.1 hx.2⟩
  same x _ := held_congr hres x
  fewer x q hq := by rwa [held_congr hres] at hq

theorem Keeps.keepLoans (s : FlowState) (p : Loan → Bool) : Keeps T s (s.keepLoans p) :=
  .of_resources (fun _ _ h => h) rfl

/-- A binding has lost its value and its resources. -/
theorem Keeps.of_lost {name : String} {state : OwnershipState} (hlost : state ≠ .owned)
    (hstate : ∀ x, t.stateOf x = if name = x then state else s.stateOf x)
    (hres : t.resources = (s.forgetResources name).resources) : Keeps T s t := by
  have hne : ∀ x, t.Holder T x → name ≠ x := by
    intro x hx h
    rw [Holder, hstate, if_pos h] at hx
    exact hlost hx.2
  refine ⟨fun x hx => ⟨hx.1, ?_⟩, fun x hx => ?_, fun x q hq => ?_⟩
  · exact ((hstate x).trans (if_neg (hne x hx))).symm.trans hx.2
  · rw [held, hres, ExtTreeMap.getD_eq_getD_getElem?, getElem?_forgetResources, if_neg (hne x hx),
      ← ExtTreeMap.getD_eq_getD_getElem?, held]
  · rw [held, hres] at hq
    obtain ⟨held, hheld, hq⟩ := mem_getD_iff.mp hq
    rw [getElem?_forgetResources] at hheld
    split at hheld
    · cases hheld
    · exact mem_held_iff.mpr ⟨held, hheld, hq⟩

/-- Each owner has the resources that one owner had before, grown older with the point, or the one
that the point has created. Bindings that own nothing hold nothing if they held nothing. -/
structure Rearranges (T : String → Prop) (origin : Location) (limit : Int) (n : Nat)
    (source : String → Option String) (s t : FlowState) : Prop where
  injective : ∀ x y, t.Holder T x → t.Holder T y → source x = source y → x = y
  minted : ∀ x, t.Holder T x → source x = none → 0 < n ∧ ∀ q, q ∈ t.held x ↔ q = { origin }
  passed : ∀ x y, t.Holder T x → source x = some y →
    s.Holder T y ∧ ∀ q, q ∈ t.held x ↔ ∃ q' ∈ s.held y, q = (Resource.agedAt origin limit)^[n] q'
  bare : (∀ x, ¬T x → ∀ q, q ∉ s.held x) → ∀ x, ¬T x → ∀ q, q ∉ t.held x

theorem Keeps.rearranges (h : Keeps T s t) (origin : Location) (limit : Int) :
    Rearranges T origin limit 0 some s t where
  injective _ _ _ _ := Option.some.inj
  minted _ _ := nofun
  passed x y hx hy := by
    cases hy
    refine ⟨h.holders x hx, fun q => ?_⟩
    rw [h.same x hx]
    simp
  bare hs x hx q hq := hs x hx q (h.fewer x q hq)

theorem Rearranges.keeps (h : Rearranges T origin limit n source s t) (hk : Keeps T t u) :
    Rearranges T origin limit n source s u where
  injective x y hx hy := h.injective x y (hk.holders x hx) (hk.holders y hy)
  minted x hx hnone := by
    rw [hk.same x hx]
    exact h.minted x (hk.holders x hx) hnone
  passed x y hx hy := by
    rw [hk.same x hx]
    exact h.passed x y (hk.holders x hx) hy
  bare hs x hx q hq := h.bare hs x hx q (hk.fewer x q hq)

theorem Rearranges.after_keeps (hk : Keeps T s w) (h : Rearranges T origin limit n source w t) :
    Rearranges T origin limit n source s t where
  injective := h.injective
  minted := h.minted
  passed x y hx hy := by
    obtain ⟨hw, hpassed⟩ := h.passed x y hx hy
    rw [hk.same y hw] at hpassed
    exact ⟨hk.holders y hw, hpassed⟩
  bare hs := h.bare fun x hx q hq => hs x hx q (hk.fewer x q hq)

/-- The point creates a resource once more, for an owner. -/
theorem Rearranges.mint (h : Rearranges T origin limit n source s w) (hd : T dest)
    (hsource : ∀ x, x ≠ dest → source x ≠ none) (hstate : ∀ x, x ≠ dest → t.stateOf x = w.stateOf x)
    (hres : t.resources = (w.mint dest origin limit).resources) :
    Rearranges T origin limit (n + 1) (fun x => if x = dest then none else source x) s t where
  injective x y hx hy heq := by
    by_cases hxd : x = dest
    · by_cases hyd : y = dest
      · rw [hxd, hyd]
      · rw [if_pos hxd, if_neg hyd] at heq
        exact absurd heq.symm (hsource y hyd)
    · by_cases hyd : y = dest
      · rw [if_neg hxd, if_pos hyd] at heq
        exact absurd heq (hsource x hxd)
      · rw [if_neg hxd, if_neg hyd] at heq
        exact h.injective x y ⟨hx.1, hstate x hxd ▸ hx.2⟩ ⟨hy.1, hstate y hyd ▸ hy.2⟩ heq
  minted x hx hnone := by
    have hxd : dest = x := by
      by_contra hne
      rw [if_neg (Ne.symm hne)] at hnone
      exact hsource x (Ne.symm hne) hnone
    refine ⟨Nat.succ_pos n, fun q => ?_⟩
    rw [held_congr hres, mem_held_mint, if_pos hxd]
  passed x y hx hy := by
    have hxd : x ≠ dest := by
      rintro rfl
      simp at hy
    rw [if_neg hxd] at hy
    obtain ⟨hsy, hpassed⟩ := h.passed x y ⟨hx.1, hstate x hxd ▸ hx.2⟩ hy
    refine ⟨hsy, fun q => ?_⟩
    rw [held_congr hres, mem_held_mint, if_neg (Ne.symm hxd)]
    simp only [hpassed]
    constructor
    · rintro ⟨_, ⟨q', hq', rfl⟩, rfl⟩
      exact ⟨q', hq', (Function.iterate_succ_apply' _ n q').symm⟩
    · rintro ⟨q', hq', rfl⟩
      exact ⟨_, ⟨q', hq', rfl⟩, Function.iterate_succ_apply' _ n q'⟩
  bare hs x hx q hq := by
    have hxd : dest ≠ x := fun h => hx (h ▸ hd)
    rw [held_congr hres, mem_held_mint, if_neg hxd] at hq
    obtain ⟨q', hq', -⟩ := hq
    exact h.bare hs x hx q' hq'

/-- An owner gets what another owner held, which has lost its value. -/
theorem Rearranges.of_carried {giver : String} (hd : T dest) (hg : s.Holder T giver)
    (hstate : ∀ x, x ≠ dest → t.stateOf x = .owned → x ≠ giver ∧ s.stateOf x = .owned)
    (hheld : ∀ q, q ∈ t.held dest ↔ ∃ q' ∈ s.held giver, q = q'.agedAt origin limit)
    (hother : ∀ x, x ≠ dest → x ≠ giver → ∀ q, q ∈ t.held x ↔
      ∃ q' ∈ s.held x, q = q'.agedAt origin limit) :
    Rearranges T origin limit 1 (fun x => some (if x = dest then giver else x)) s t where
  injective x y hx hy heq := by
    have heq := Option.some.inj heq
    by_cases hxd : x = dest
    · by_cases hyd : y = dest
      · rw [hxd, hyd]
      · rw [if_pos hxd, if_neg hyd] at heq
        exact absurd heq.symm (hstate y hyd hy.2).1
    · by_cases hyd : y = dest
      · rw [if_neg hxd, if_pos hyd] at heq
        exact absurd heq (hstate x hxd hx.2).1
      · rwa [if_neg hxd, if_neg hyd] at heq
  minted _ _ := nofun
  passed x y hx hy := by
    cases hy
    by_cases hxd : x = dest
    · rw [if_pos hxd, hxd]
      exact ⟨hg, hheld⟩
    · rw [if_neg hxd]
      obtain ⟨hne, howned⟩ := hstate x hxd hx.2
      exact ⟨⟨hx.1, howned⟩, hother x hxd hne⟩
  bare hs x hx q hq := by
    have hxd : x ≠ dest := fun h => hx (h ▸ hd)
    have hxg : x ≠ giver := fun h => hx (h ▸ hg.1)
    obtain ⟨q', hq', -⟩ := (hother x hxd hxg q).mp hq
    exact hs x hx q' hq'

end FlowState

/-- The binding owns a resource when it has a value: it is neither a reference nor duplicable. -/
def Function.Owns (f : Function) (types : TypeTable) (x : String) : Prop :=
  ∃ b d, f.bindings.get? x = some b ∧ types.fetch b.type = .ok d ∧ d.isRef = false ∧
    types.isDuplicable b.type = .ok false

namespace Site
variable {c : Site} {s t u w : FlowState} {name dest source : String} {v : Option Violation}
    {vs : List Violation}
variable {T : String → Prop}

theorem tracksResource_iff : c.tracksResource name = .ok true ↔ c.function.Owns c.types name := by
  constructor
  · intro h
    obtain ⟨isRef, href, h⟩ := Except.bind_inv h
    obtain ⟨b, hb, href⟩ := Except.bind_inv href
    obtain ⟨d, hd, href⟩ := Except.bind_inv href
    cases isRef with
    | true => cases h
    | false =>
      obtain ⟨dup, hdup, h⟩ := Except.bind_inv h
      obtain ⟨b', hb', hdup⟩ := Except.bind_inv hdup
      cases hb.symm.trans hb'
      cases dup with
      | true => cases h
      | false => exact ⟨b, d, Function.binding_iff.mp hb, hd, Except.ok.inj href, hdup⟩
  · rintro ⟨b, d, hb, hd, href, hdup⟩
    have hb := Function.binding_iff.mpr hb
    have href : c.isRef name = .ok false :=
      (Except.bind_of_ok hb).trans ((Except.bind_of_ok hd).trans (congrArg Except.ok href))
    have hdup : c.isDuplicable name = .ok false := (Except.bind_of_ok hb).trans hdup
    exact (Except.bind_of_ok href).trans (Except.bind_of_ok hdup)

theorem isDuplicable_of_owns (h : c.function.Owns c.types name) :
    c.isDuplicable name = .ok false := by
  obtain ⟨b, d, hb, -, -, hdup⟩ := h
  exact (Except.bind_of_ok (Function.binding_iff.mpr hb)).trans hdup

theorem moveOut_keeps (h : (c.moveOut name).run s = .ok v t) : FlowState.Keeps T s t := by
  obtain ⟨-, -, rfl⟩ | ⟨-, -, rfl, -⟩ | ⟨-, -, rfl, -⟩ := moveOut_inv h
  · exact .refl _
  · exact .refl _
  · refine .of_resources (fun x _ hx => ?_) rfl
    rw [FlowState.stateOf_setState] at hx
    split at hx
    · cases hx
    · exact hx

theorem lend_keeps {kind : LoanKind} {mutable : Bool} {result : Except Violation Loan}
    (h : (c.lend name kind mutable).run s = .ok result t) : FlowState.Keeps T s t := by
  obtain ⟨-, rfl⟩ := lend_iff.mp h
  cases result with
  | error w => exact .refl _
  | ok loan => exact .of_resources (fun _ _ hx => hx) rfl

structure Mints (c : Site) (name : String) (s t : FlowState) : Prop where
  owns : c.function.Owns c.types name
  states : ∀ x, x ≠ name → t.stateOf x = s.stateOf x
  resources : t.resources = (c.mint name s).resources

/-- The owners change places as they may at this point, which creates at most one resource, or two
where a silent operation has a binding to do with that owns nothing. -/
def Rearranges (c : Site) (vs : List Violation) (s t : FlowState) : Prop :=
  ∃ n source, FlowState.Rearranges (c.function.Owns c.types) c.location c.function.bindings.size n
    source s t ∧
    (n ≤ 1 ∨ n ≤ 2 ∧ (vs = [] → ∃ x, c.function.bindings.contains x = true ∧
      ¬c.function.Owns c.types x))

theorem Rearranges.of_keeps (h : FlowState.Keeps (c.function.Owns c.types) s t) :
    c.Rearranges vs s t :=
  ⟨0, some, h.rearranges _ _, Or.inl (Nat.zero_le 1)⟩

theorem Rearranges.of_mints (hk : FlowState.Keeps (c.function.Owns c.types) s w)
    (h : c.Mints name w t) : c.Rearranges vs s t :=
  ⟨1, _, .after_keeps hk (((FlowState.Keeps.refl w).rearranges _ _).mint h.owns (fun _ _ => nofun)
    h.states h.resources), Or.inl (Nat.le_refl 1)⟩

theorem renew_cases {tracks : Bool} (htracks : c.tracksResource name = .ok tracks) :
    c.renew name tracks s = s ∨ c.Mints name s (c.renew name tracks s) := by
  cases tracks with
  | false => exact Or.inl rfl
  | true => exact Or.inr ⟨tracksResource_iff.mp htracks, fun _ _ => rfl, rfl⟩

theorem writeThrough_cases (h : (c.writeThrough name).run s = .ok v t) :
    t = s ∨ c.Mints name s t := by
  obtain ⟨rfl, -⟩ | h := writeThrough_inv h
  · exact Or.inl rfl
  · cases v with
    | some v => exact Or.inl (write_some_inv h).1
    | none =>
      obtain ⟨-, tracks, htracks, rfl⟩ := write_none_iff.mp h
      exact renew_cases htracks

/-- A binding that is given a value has a new resource if it owns one; else no owner is
concerned. -/
theorem store_cases (h : (c.store name).run s = .ok v t) :
    FlowState.Keeps (c.function.Owns c.types) s t ∧ (v = none → ¬c.function.Owns c.types name) ∨
      v = none ∧ c.Mints name s t := by
  cases v with
  | some v => exact Or.inl ⟨(store_some_inv h).1 ▸ .refl _, nofun⟩
  | none =>
    obtain ⟨-, -, isRef, tracks, href, htracks, rfl⟩ := store_none_iff.mp h
    have hstate : ∀ x, (c.given name isRef tracks s).stateOf x = if name = x then .owned
        else s.stateOf x :=
      stateOf_given isRef tracks s
    by_cases howns : c.function.Owns c.types name
    · have htrue := tracksResource_iff.mpr howns
      cases htracks.symm.trans htrue
      have hfalse : isRef = false := by
        cases isRef with
        | false => rfl
        | true => cases htrue.symm.trans (tracksResource_of_isRef href)
      refine Or.inr ⟨rfl, howns, fun x hx => (hstate x).trans (if_neg (Ne.symm hx)), ?_⟩
      rw [hfalse, given, if_neg Bool.false_ne_true]
      split <;> rfl
    · have hfalse : tracks = false := by
        cases tracks with
        | false => rfl
        | true => exact absurd (tracksResource_iff.mp htracks) howns
      refine Or.inl ⟨.of_resources (fun x hx hx' => ?_) ?_, fun _ => howns⟩
      · rw [hstate x, if_neg (fun h : name = x => howns (h ▸ hx))] at hx'
        exact hx'
      · rw [hfalse, given]
        split
        · rfl
        · split <;> rfl

theorem stateOf_carryResources (moved : Bool) (x : String) :
    (carryResources dest source moved s).stateOf x = s.stateOf x := by
  unfold carryResources
  cases moved <;> cases s.resources[source]? <;> rfl

theorem getElem?_carryResources {held : Resources} (hheld : s.resources[source]? = some held)
    (moved : Bool) (x : String) : (carryResources dest source moved s).resources[x]? =
      if dest = x then some held else if moved = true ∧
      source = x then none else s.resources[x]? := by
  rw [carryResources, hheld]
  dsimp only
  rw [FlowState.getElem?_setResources]
  cases moved <;> simp

/-- Resources are carried over between owners only, and states stay as they are. -/
theorem transfer_cases {moved : Bool} (h : (c.transfer dest source moved).run s = .ok () t) :
    (∀ x, t.stateOf x = s.stateOf x) ∧ (t.resources = s.resources ∨
      c.function.Owns c.types source ∧ c.function.Owns c.types dest ∧
      t.resources = (carryResources dest source moved s).resources) := by
  obtain ⟨toRef, -, -, rfl⟩ | ⟨tracks, -, htracks, ⟨rfl, rfl⟩ | ⟨rfl, takes, htakes, rfl⟩⟩ :=
    transfer_iff.mp h
  · unfold carryLoans
    cases moved <;> cases toRef <;> exact ⟨fun _ => rfl, Or.inl rfl⟩
  · exact ⟨fun _ => rfl, Or.inl rfl⟩
  · cases takes with
    | false => exact ⟨fun _ => rfl, Or.inl rfl⟩
    | true =>
      exact ⟨stateOf_carryResources moved,
        Or.inr ⟨tracksResource_iff.mp htracks, tracksResource_iff.mp htakes, rfl⟩⟩

/-- An owner that has just got a new resource is handed those of another one instead. -/
theorem Mints.carry (h : c.Mints dest (s.setState source .moved) w)
    (hs : s.Holder (c.function.Owns c.types) source) (hstates : ∀ x, t.stateOf x = w.stateOf x)
    (hres : t.resources = (carryResources dest source true w).resources) :
    c.Rearranges vs s t := by
  have hlost : FlowState.Keeps (c.function.Owns c.types) s (s.setState source .moved) := by
    refine .of_resources (fun x _ hx => ?_) rfl
    rw [FlowState.stateOf_setState] at hx
    split at hx
    · cases hx
    · exact hx
  have hkept : t.resources = w.resources → c.Rearranges vs s t := fun hkept =>
    .of_mints hlost ⟨h.owns, fun x hx => (hstates x).trans (h.states x hx), hkept.trans h.resources⟩
  cases hheld : w.resources[source]? with
  | none =>
    apply hkept
    rw [hres, carryResources, hheld]
    refine ExtTreeMap.ext_getElem? fun x => ?_
    dsimp only
    rw [if_pos rfl, FlowState.getElem?_forgetResources]
    split
    · rename_i hx
      rw [← hx, hheld]
    · rfl
  | some held =>
    by_cases hds : dest = source
    · apply hkept
      rw [hres]
      refine ExtTreeMap.ext_getElem? fun x => ?_
      rw [getElem?_carryResources hheld]
      by_cases hx : dest = x
      · rw [if_pos hx, ← hx, hds, hheld]
      · rw [if_neg hx, if_neg fun hx' => hx (hds.trans hx'.2)]
    · have haged : ∀ x, x ≠ dest → ∀ q, q ∈ w.held x ↔
          ∃ q' ∈ s.held x, q = q'.agedAt c.location c.function.bindings.size := by
        intro x hx q
        rw [FlowState.held_congr h.resources, mint, FlowState.mem_held_mint, if_neg (Ne.symm hx)]
        rfl
      refine ⟨1, _, .of_carried h.owns hs (fun x hx howned => ?_) (fun q => ?_)
        (fun x hx hxs q => ?_), Or.inl (Nat.le_refl 1)⟩
      · rw [hstates x, h.states x hx, FlowState.stateOf_setState] at howned
        split at howned
        · cases howned
        · rename_i hne
          exact ⟨Ne.symm hne, howned⟩
      · rw [← haged source (Ne.symm hds), FlowState.held_congr hres, FlowState.mem_held_iff,
          getElem?_carryResources hheld, if_pos rfl, FlowState.mem_held_iff, hheld]
      · rw [← haged x hx, FlowState.held_congr hres, FlowState.mem_held_iff,
          getElem?_carryResources hheld,
          if_neg (Ne.symm hx), if_neg fun h => hxs h.2.symm, FlowState.mem_held_iff]

theorem assign_rearranges {source : Option String} (h : (c.assign dest source).run s = .ok vs t) :
    c.Rearranges vs s t := by
  cases source with
  | none =>
    obtain ⟨refused, hr, -⟩ := assign_none_iff.mp h
    rcases store_cases hr with ⟨hk, -⟩ | ⟨-, hmints⟩
    · exact .of_keeps hk
    · exact .of_mints (.refl s) hmints
  | some source =>
    obtain ⟨dup, taken, u, refused, w, hdup, hm, hr, -, hcarry⟩ := assign_some_iff.mp h
    have hu : FlowState.Keeps (c.function.Owns c.types) s u := moveOut_keeps hm
    rcases store_cases hr with ⟨hw, hnot⟩ | ⟨rfl, hmints⟩
    · rcases hcarry with ⟨⟨hnone, -⟩, ht⟩ | ⟨-, rfl⟩
      · obtain ⟨hstates, hres | ⟨-, hdest, -⟩⟩ := transfer_cases ht
        · exact .of_keeps (hu.trans (hw.trans (.of_resources (fun x _ hx => hstates x ▸ hx) hres)))
        · exact absurd hdest (hnot hnone)
      · exact .of_keeps (hu.trans hw)
    · rcases hcarry with ⟨⟨-, howned⟩, ht⟩ | ⟨-, rfl⟩
      · obtain ⟨hstates, hres | ⟨hsource, -, hres⟩⟩ := transfer_cases ht
        · exact .of_mints hu ⟨hmints.owns, fun x hx => (hstates x).trans (hmints.states x hx),
            hres.trans hmints.resources⟩
        · cases hdup.symm.trans (isDuplicable_of_owns hsource)
          obtain ⟨hdup', -⟩ | ⟨-, hlost, -⟩ | ⟨-, -, rfl, -⟩ := moveOut_inv hm
          · cases hdup.symm.trans hdup'
          · exact absurd howned hlost
          · exact hmints.carry ⟨hsource, howned⟩ hstates hres
      · exact .of_mints hu hmints

/-- What an owner was handed before a resource is created for it is lost. -/
theorem mint_carryResources
    (hres : u.resources = w.resources ∨
      u.resources = (carryResources dest source false w).resources) :
    (c.mint dest u).resources = (c.mint dest w).resources := by
  refine ExtTreeMap.ext_getElem? fun x => ?_
  rw [mint, mint, FlowState.getElem?_mint, FlowState.getElem?_mint]
  by_cases hx : dest = x
  · rw [if_pos hx, if_pos hx]
  · rw [if_neg hx, if_neg hx]
    rcases hres with hres | hres
    · rw [hres]
    · rw [hres]
      cases hheld : w.resources[source]? with
      | none => rw [carryResources, hheld]; rfl
      | some held =>
        rw [getElem?_carryResources hheld, if_neg hx, if_neg fun h => Bool.false_ne_true h.1]

theorem copy_rearranges (h : (c.copy dest source).run s = .ok vs t) : c.Rearranges vs s t := by
  obtain ⟨invalid, hinvalid, h⟩ := copy_iff.mp h
  obtain ⟨refused, w, hr, hvs, hcopy⟩ := copyTyped_iff.mp h
  rcases store_cases hr with ⟨hw, hnot⟩ | ⟨rfl, hmints⟩
  · rcases hcopy with ⟨⟨hnone, -⟩, u, tracks, ht, htracks, rfl⟩ | ⟨-, rfl⟩
    · obtain ⟨hstates, hres | ⟨-, hdest, -⟩⟩ := transfer_cases ht
      · have hu : FlowState.Keeps (c.function.Owns c.types) w u :=
          .of_resources (fun x _ hx => hstates x ▸ hx) hres
        rcases renew_cases htracks with hsame | hmints
        · rw [hsame]
          exact .of_keeps (hw.trans hu)
        · exact absurd hmints.owns (hnot hnone)
      · exact absurd hdest (hnot hnone)
    · exact .of_keeps hw
  · rcases hcopy with ⟨-, u, tracks, ht, htracks, rfl⟩ | ⟨-, rfl⟩
    · cases htracks.symm.trans (tracksResource_iff.mpr hmints.owns)
      obtain ⟨hstates, hres⟩ := transfer_cases ht
      have hres := mint_carryResources (c := c) (hres.imp_right fun h => h.2.2)
      have hfirst :=
        ((FlowState.Keeps.refl s).rearranges _ _).mint hmints.owns (fun _ _ => nofun) hmints.states
          hmints.resources
      refine ⟨2, _, hfirst.mint hmints.owns (fun x hx => ?_) (fun x _ => hstates x) hres,
        Or.inr ⟨Nat.le_refl 2, fun hnil => ?_⟩⟩
      · rw [if_neg hx]
        nofun
      · -- a silent copy has a duplicable source
        rcases hinvalid with ⟨hdup, -⟩ | ⟨-, b, type, -, -, rfl⟩
        · refine ⟨source, ?_, fun howns => ?_⟩
          · obtain ⟨b, hb, -⟩ := Except.bind_inv hdup
            rw [← Registry.isSome_get?, Function.binding_iff.mp hb]
            rfl
          · cases hdup.symm.trans (isDuplicable_of_owns howns)
        · rw [hvs] at hnil
          cases hnil
    · exact .of_mints (.refl s) hmints

theorem dropScope_keeps {scope : String} (h : (c.dropScope scope).run s = .ok vs t) :
    FlowState.Keeps T s t := by
  obtain ⟨-, rfl⟩ := dropScope_iff.mp h
  have hdrop : ∀ (u : FlowState) (x : String), FlowState.Keeps T u (u.drop x) := fun u x =>
    .of_lost OwnershipState.noConfusion (fun _ => FlowState.stateOf_setState) rfl
  exact List.foldlRecOn (motive := FlowState.Keeps T s) _ _ (FlowState.Keeps.keepLoans s _)
    fun u hu x _ => hu.trans (hdrop u x)

end Site

namespace Checker
variable {k : Checker} {c : Site} {s t : FlowState} {vs : List Violation} {T : String → Prop}

theorem pass_keeps {p q : Passed} {arg callee : String} {m : Manner}
    (h : (m.pass c callee p arg).run s = .ok q t) : FlowState.Keeps T s t := by
  cases m with
  | value =>
    obtain ⟨v, hm, -⟩ | ⟨hm, -⟩ := passValue_iff.mp h
    · exact Site.moveOut_keeps hm
    · exact Site.moveOut_keeps hm
  | reference exclusive =>
    obtain ⟨v, -, -, rfl⟩ | ⟨-, writes, -, ⟨-, -, -, rfl⟩ | ⟨-, ⟨v, hl, -⟩ | ⟨loan, hl, -⟩⟩⟩ :=
      passReference_iff.mp h
    · exact .refl _
    · exact .refl _
    · exact Site.lend_keeps hl
    · exact Site.lend_keeps hl
  | owner exclusive =>
    obtain ⟨b, -, ⟨v, hl, -⟩ | ⟨loan, hl, -⟩⟩ := passOwner_iff.mp h
    · exact Site.lend_keeps hl
    · exact Site.lend_keeps hl

theorem passAll_keeps {callee : String} (args : List (String × Param)) {p q : Passed}
    (h : (k.passAll c callee args p).run s = .ok q t) : FlowState.Keeps T s t := by
  induction args generalizing s p with
  | nil => cases h; exact .refl _
  | cons e args ih =>
    obtain ⟨m, p', u, -, hm, hrest⟩ := passAll_cons_iff.mp h
    exact (pass_keeps hm).trans (ih hrest)

theorem applyCall_rearranges {call : Call} (h : (k.applyCall c call).run s = .ok vs t) :
    c.Rearranges vs s t := by
  obtain ⟨sig, passed, u, -, hpass, hrest⟩ := applyCall_iff.mp h
  have hu : FlowState.Keeps (c.function.Owns c.types) s (u.removeLoans passed.loans) :=
    (passAll_keeps _ hpass).trans (.keepLoans u _)
  obtain ⟨-, -, rfl⟩ | ⟨dest, inherited, ws, -, -, hr, -⟩ := hrest
  · exact .of_keeps hu
  · obtain ⟨refused, w, isRef, hgive, -, -, rfl⟩ := receive_iff.mp hr
    have hw : ∀ {x : FlowState}, FlowState.Keeps (c.function.Owns c.types) x
        (if isRef = true ∧ x.stateOf dest = .owned then inheritedBy dest inherited x else x) := by
      intro x
      split
      · exact .of_resources (fun _ _ h => h) rfl
      · exact .refl x
    rcases Site.store_cases hgive with ⟨hk, -⟩ | ⟨-, hmints⟩
    · exact .of_keeps (hu.trans (hk.trans hw))
    · obtain ⟨n, source, hrearr, hn⟩ : c.Rearranges vs s w := .of_mints hu hmints
      exact ⟨n, source, hrearr.keeps hw, hn⟩

/-- An operation rearranges the owners of its function, and hands nothing to two of them. -/
theorem applyOp_rearranges {signatures : Registry Signature} {op : Op}
    (hfit : op.Fits c.function c.types signatures) (h : (k.applyOp c op).run s = .ok vs t) :
    c.Rearranges vs s t := by
  cases op with
  | declare x =>
    cases h
    exact .of_keeps (.of_lost OwnershipState.noConfusion (fun _ => FlowState.stateOf_setState) rfl)
  | init x source => exact Site.assign_rearranges h
  | move dest source =>
    change (c.assign dest (some source)).run s = .ok vs t at h
    exact Site.assign_rearranges h
  | copy dest source => exact Site.copy_rearranges h
  | borrow x kind ref =>
    obtain ⟨v, h, -⟩ := run_toList_iff.mp h
    -- the binding that gets a value is a reference, which owns nothing
    have href : ¬c.function.Owns c.types ref := by
      rintro ⟨b, d, hb, hd, hfalse, -⟩
      obtain ⟨b', d', hb', hd', htrue⟩ := hfit.ref x kind ref rfl
      cases hb.symm.trans hb'
      cases hd.symm.trans hd'
      cases hfalse.symm.trans htrue
    have hdefine : FlowState.Keeps (c.function.Owns c.types) s (s.defineRef ref) := by
      refine .of_resources (fun y hy howned => ?_) rfl
      exact (FlowState.stateOf_setState.trans (if_neg fun h : ref = y => href (h ▸ hy))).symm.trans
        howned
    obtain ⟨b, through, -, -, ⟨w, -, -, rfl⟩ | ⟨loan, -, -, rfl⟩⟩ := Site.borrow_iff.mp h
    · exact .of_keeps hdefine
    · exact .of_keeps (hdefine.trans (.of_resources (fun _ _ h => h) rfl))
  | use x => cases h; exact .of_keeps (.refl _)
  | write target value =>
    cases value with
    | none =>
      obtain ⟨v, hw, -⟩ := run_toList_iff.mp h
      rcases Site.writeThrough_cases hw with rfl | hmints
      · exact .of_keeps (.refl _)
      · exact .of_mints (.refl s) hmints
    | some value =>
      obtain ⟨taken, u, refused, hm, hw, -⟩ := applyOp_write_some_iff.mp h
      rcases Site.writeThrough_cases hw with rfl | hmints
      · exact .of_keeps (Site.moveOut_keeps hm)
      · exact .of_mints (Site.moveOut_keeps hm) hmints
  | call call => exact applyCall_rearranges h
  | endScope scope => exact .of_keeps (Site.dropScope_keeps h)
  | unsupported name => cases h

theorem applyTerminator_keeps {terminator : Option Terminator}
    (h : (applyTerminator c terminator).run s = .ok vs t) : FlowState.Keeps T s t := by
  cases terminator with
  | none => cases h
  | some terminator =>
    cases terminator with
    | jump target => cases h; exact .refl _
    | branch l m cond => cases cond <;> cases h <;> exact .refl _
    | ret value =>
      cases value with
      | none => cases h; exact .refl _
      | some value =>
        obtain ⟨-, rfl, -⟩ | ⟨-, taken, hm, -⟩ := applyReturn_iff.mp h
        · exact .refl _
        · exact Site.moveOut_keeps hm
    | unsupported name => cases h

end Checker

end Ownership
