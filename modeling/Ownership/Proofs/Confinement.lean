import Ownership.Proofs.Holders

/-! # What flow states may speak of

Between operations every loan lasts: it is held by a reference of the function and goes back to a
borrow or a call in a block that control reaches. The loans that a call makes for its arguments end
with it, however often an argument is passed and whichever of them is refused. All else that a flow
state knows is about the bindings of the function, the lifetimes of its parameters, and resources
that a parameter brought along or an operation made.
-/
namespace Ownership
open Std

namespace Function
variable {f : Function} {types : TypeTable} {l : Loan}

def LendsAt (f : Function) (point : Location) : Prop :=
  ∃ (b : Block) (n : Nat) (i : Instruction), f.Reachable b.label ∧ f.blocks.get? b.label = some b ∧
    b.body[n]? = some i ∧ i.op.makesLoans = true ∧ point = ⟨f.name, b.label, n⟩

/-- A loan that may be in force between operations: it is not only for a call, a reference of the
function holds it, and an operation that makes loans made it, or made the one that it is a copy
of. -/
structure Lasting (f : Function) (types : TypeTable) (l : Loan) : Prop where
  lasts : l.temporary = false
  holder : ∃ x, l.ref = some x ∧ f.IsRef types x
  origin : f.LendsAt l.origin

theorem Lasting.retarget {d : String} (h : f.Lasting types l) (hd : f.IsRef types d) :
    f.Lasting types (l.retarget (some d)) :=
  ⟨rfl, ⟨d, rfl, hd⟩, h.origin⟩

theorem mem_lifetimesOf {p : Param} {lt : String} :
    lt ∈ lifetimesOf types p ↔ ∃ own, Lifetime.ofParam? types p = .ok (some own) ∧ lt ∈ own := by
  rw [lifetimesOf]
  split
  · rename_i own hown
    simp [hown]
  · rename_i hnone
    simpa using fun own hown => absurd hown (hnone own)

end Function

namespace Checker
variable {k : Checker} {c : Site} {f : Function} {r : Regions} {op : Op} {s t : FlowState}
    {l : Loan} {b : Block}
variable {signatures : Registry Signature}

theorem Receives.ref {d : String} (h : Receives c op d)
    (hfit : op.Fits c.function c.types signatures) : c.function.IsRef c.types d := by
  rcases h.isRef with ⟨x, kind, rfl⟩ | href
  · exact hfit.ref x kind d rfl
  · exact Site.isRef_iff.mp href

theorem Descends.lasting (h : Descends c op s l) (hfit : op.Fits c.function c.types signatures)
    (hpoint : op.makesLoans = true → c.function.LendsAt c.location)
    (hs : ∀ m ∈ s.loans, c.function.Lasting c.types m) : c.function.Lasting c.types l := by
  cases h with
  | kept hmem => exact hs l hmem
  | cloned hmem hd heq => exact heq ▸ (hs _ hmem).retarget (hd.ref hfit)
  | made hop hd hholder horigin hlasts =>
    exact ⟨hlasts, ⟨_, hholder, hd.ref hfit⟩, horigin ▸ hpoint hop⟩

section Blocks
variable (hb : f.blocks.get? b.label = some b) (hreach : f.Reachable b.label)
variable (hfit : b.Fits f k.types (k.signaturesFor f))
include hb hreach hfit

theorem applyInstruction_lasting {done rest : List Instruction} {i : Instruction}
    (hbody : b.body = done ++ i :: rest) (hs : ∀ m ∈ s.loans, f.Lasting k.types m) {e : Event}
    (hrun : (k.applyInstruction r (k.site f r b done.length i.span) i).run s = .ok e t) :
    ∀ m ∈ t.loans, f.Lasting k.types m := by
  obtain ⟨vs, u, hop, -, rfl⟩ := applyInstruction_iff.mp hrun
  intro m hm
  have hdescends := applyOp_descends hop (FlowState.mem_keepLoans.mp hm).1
  have hi : b.body[done.length]? = some i := by simp [hbody]
  exact hdescends.lasting (hfit.body i (by simp [hbody]))
    (fun hlends => ⟨b, done.length, i, hreach, hb, hi, hlends, rfl⟩) hs

theorem applyFrom_lasting (done rest : List Instruction) (hbody : b.body = done ++ rest)
    (hs : ∀ m ∈ s.loans, f.Lasting k.types m) {es : List Event}
    (hrun : (k.applyFrom f r b done.length rest).run s = .ok es t) :
    ∀ m ∈ t.loans, f.Lasting k.types m := by
  induction rest generalizing done s es with
  | nil =>
    obtain ⟨e, he, -⟩ := applyFrom_nil_iff.mp hrun
    obtain ⟨vs, u, hterm, -, rfl⟩ := applyEnding_iff.mp he
    exact fun m hm => hs m (loans_of_applyTerminator hterm ▸ (FlowState.mem_keepLoans.mp hm).1)
  | cons i rest ih =>
    obtain ⟨e, u, es', he, hrest, -⟩ := applyFrom_cons_iff.mp hrun
    have hu := applyInstruction_lasting hb hreach hfit hbody hs he
    have hlen : ((done ++ [i]).length : Int) = done.length + 1 := by simp
    rw [← hlen] at hrest
    exact ih (done ++ [i]) (by simp [hbody]) hu hrest

end Blocks

theorem transferBlock_lasting (hfit : f.Fits k.types (k.signaturesFor f)) {label : String}
    (hreach : f.Reachable label) (hs : ∀ m ∈ s.loans, f.Lasting k.types m) {es : List Event}
    (hrun : k.transferBlock f r label s = .ok (t, es)) :
    ∀ m ∈ t.loans, f.Lasting k.types m := by
  obtain ⟨b, hb, hbody⟩ := transferBlock_iff.mp hrun
  obtain rfl : b.label = label := Registry.name_of_get?_eq_some hb
  exact applyFrom_lasting hb hreach (hfit.blocks b (Registry.mem_of_get?_eq_some hb)) [] b.body
    rfl hs hbody

structure Settled (k : Checker) (f : Function) (label : String) (s : FlowState) : Prop where
  located : k.Located f label s
  lasting : ∀ m ∈ s.loans, f.Lasting k.types m

theorem settled_invariant (hfit : f.Fits k.types (k.signaturesFor f)) :
    k.Invariant f r (k.Settled f) where
  entry label s hl hs :=
    ⟨(located_invariant (r := r) hfit).entry label s hl hs,
      fun m hm => absurd hm (entryState_loans hs m)⟩
  step label s t es m hs hrun hedge := by
    refine ⟨(located_invariant hfit).step label s t es m hs.located hrun hedge, fun l hl => ?_⟩
    exact transferBlock_lasting hfit hs.located.1 hs.lasting hrun l
      (FlowState.mem_keepLoans.mp hl).1
  merge label s t hs ht :=
    ⟨(located_invariant (r := r) hfit).merge label s t hs.located ht.located,
      fun m hm => (Loans.mem_join.mp hm).elim (hs.lasting m) (ht.lasting m)⟩

theorem analyze_inv {a : Analysis} (ha : k.analyze f = .ok a) :
    WellFormed.checkFunction f k.types (k.signaturesFor f) = .ok () ∧
      ∃ r, Regions.compute f k.types k.policy = .ok r := by
  rw [analyze] at ha
  obtain ⟨_, hf, ha⟩ := Except.bind_inv ha
  obtain ⟨order, -, ha⟩ := Except.bind_inv ha
  obtain ⟨r, hr, -⟩ := Except.bind_inv ha
  exact ⟨hf, r, hr⟩

theorem settled_of_analyze {a : Analysis} (ha : k.analyze f = .ok a) {label : String}
    (hs : a.inStates[label]? = some s ∨ a.outStates[label]? = some s) :
    s.Inside (f.vocabulary k.types) ∧ ∀ m ∈ s.loans, f.Lasting k.types m := by
  obtain ⟨hf, r, hr⟩ := analyze_inv ha
  have hfit := WellFormed.checkFunction_inv hf
  have hin : ∀ {label : String} {s : FlowState}, a.inStates[label]? = some s →
      k.Settled f label s :=
    analyze_invariant hf hr (settled_invariant hfit) ha
  rcases hs with hs | hs
  · exact ⟨(hin hs).located.2, (hin hs).lasting⟩
  · -- the state behind a block is what the block makes of the state before it
    have hsolves := analyze_solves hf hr ha
    have hlabel : label ∈ a.outStates := ExtTreeMap.mem_iff_isSome_getElem?.mpr (by rw [hs]; rfl)
    have hreach := (hsolves.outStates label).mp hlabel
    obtain ⟨u, hu⟩ :=
      Option.isSome_iff_exists.mp
        (ExtTreeMap.mem_iff_isSome_getElem?.mp ((hsolves.inStates label).mpr hreach))
    obtain ⟨t, es, hrun, ht⟩ := hsolves.result label u hu
    cases ht.symm.trans hs
    exact ⟨transferBlock_inside hfit (hin hu).located.2 hrun,
      transferBlock_lasting hfit hreach (hin hu).lasting hrun⟩

/-- The state speaks only of its function: its bindings, the lifetimes of its parameters, and loans
and resources that come from where its operations stand or from its parameters. Its loans last. -/
structure Confined (k : Checker) (f : Function) (s : FlowState) : Prop where
  states : ∀ x ∈ s.states, f.bindings.contains x = true
  loans : ∀ l ∈ s.loans, f.bindings.contains l.place = true ∧ f.Lasting k.types l
  provenance : ∀ (x : String) (lts : Names), s.provenance[x]? = some lts →
    f.bindings.contains x = true ∧
    ∀ lt ∈ lts, ∃ p ∈ f.signature.params, ∃ own,
      Lifetime.ofParam? k.types p = .ok (some own) ∧ lt ∈ own
  resources : ∀ (x : String) (held : Resources), s.resources[x]? = some held →
    f.bindings.contains x = true ∧
    ∀ res ∈ held, 0 ≤ res.generation ∧ res.generation ≤ f.bindings.size ∧
      ((∃ i < f.signature.params.length, res.origin = ⟨f.name, "<param>", (i : Nat)⟩) ∨
        ∃ b ∈ f.blocks.entries, ∃ n < b.body.length, res.origin = ⟨f.name, b.label, (n : Nat)⟩)

/-- Whatever the policy and whether or not arguments are lent by themselves, the states that the
analysis of a function finds before and behind its blocks speak only of the function, and no loan
that was made for a call is in them. -/
theorem analyze_confined {a : Analysis} (ha : k.analyze f = .ok a) {label : String}
    (hs : a.inStates[label]? = some s ∨ a.outStates[label]? = some s) : k.Confined f s := by
  obtain ⟨hinside, hlasting⟩ := settled_of_analyze ha hs
  have hbound : ∀ {x}, x ∈ (f.vocabulary k.types).bindings → f.bindings.contains x = true :=
    Registry.contains_iff_mem_names.mpr
  refine ⟨fun x hx => hbound (hinside.states x hx),
    fun l hl => ⟨hbound (hinside.loans l hl).place, hlasting l hl⟩,
    fun x lts hlts => ?_, fun x held hheld => ?_⟩
  · obtain ⟨hx, hall⟩ := hinside.provenance x lts hlts
    refine ⟨hbound hx, fun lt hlt => ?_⟩
    obtain ⟨p, hp, hown⟩ := List.mem_flatMap.mp (hall lt hlt)
    exact ⟨p, hp, Function.mem_lifetimesOf.mp hown⟩
  · obtain ⟨hx, hall⟩ := hinside.resources x held hheld
    refine ⟨hbound hx, fun res hres => ?_⟩
    obtain ⟨horigin, hyoung, hold⟩ := hall res hres
    refine ⟨hyoung, hold, ?_⟩
    rcases List.mem_append.mp horigin with hpoint | houtside
    · obtain ⟨b, hb, hmem⟩ := List.mem_flatMap.mp hpoint
      obtain ⟨n, hn, hpoint⟩ := List.mem_map.mp hmem
      exact Or.inr ⟨b, hb, n, List.mem_range.mp hn, hpoint.symm⟩
    · obtain ⟨i, hi, houtside⟩ := List.mem_map.mp houtside
      exact Or.inl ⟨i, List.mem_range.mp hi, houtside.symm⟩

end Checker

namespace Function

/-- A function calls itself in a loop, each time with one number twice, which is lent, and with a
text, which is gone after the first time. -/
def callingLoop : Function :=
  [{ label := "entry", body := [{ op := .init "n" none }],
     ending := some { terminator := .jump "loop" } },
   { label := "loop",
     body :=
       [{ op := .call { function := "callingLoop", args := ["n", "n", "z"], dest := some "r" } }],
     ending := some { terminator := .branch "loop" "done" none } },
   { label := "done", body := [{ op := .use "r" }],
     ending := some { terminator := .ret (some "x") } }].foldl addBlock
    ([{ name := "n", type := 1 }, { name := "r", type := 2, mutable := true }].foldl addBinding
      (ofSignature {
        name := "callingLoop",
        params :=
          [{ name := "x", type := 2 }, { name := "y", type := 2 }, { name := "z", type := 3 }],
        returns := some 2 }))

end Function

namespace Checker

/-- Of the loans for the two rounds one is left where the loop ends: that of the result on the
number. -/
theorem analyze_confined_callingLoop :
    ∃ a s, basic.analyze .callingLoop = .ok a ∧ a.inStates["done"]? = some s ∧
    s.loans.keys = [⟨"n", .shared, some "r", ⟨"callingLoop", "loop", 0⟩, false⟩] ∧
    basic.Confined .callingLoop s := by
  have hrun : (basic.analyze .callingLoop).toOption.bind
      (fun a => a.inStates["done"]?.map (·.loans.keys)) =
      some [⟨"n", .shared, some "r", ⟨"callingLoop", "loop", 0⟩, false⟩] := by decide +kernel
  obtain ⟨a, ha, hrun⟩ := Option.bind_eq_some_iff.mp hrun
  obtain ⟨s, hs, hloans⟩ := Option.map_eq_some_iff.mp hrun
  have hanalyze : basic.analyze .callingLoop = .ok a := by
    cases hresult : basic.analyze .callingLoop <;> simp_all [Except.toOption]
  exact ⟨a, s, hanalyze, hs, hloans, analyze_confined hanalyze (Or.inl hs)⟩

end Checker

end Ownership
