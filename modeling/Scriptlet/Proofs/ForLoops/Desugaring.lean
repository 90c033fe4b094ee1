import Mathlib
import Scriptlet.Proofs.ForLoops.Runs
import Scriptlet.Proofs.Run.Restores
import Scriptlet.Proofs.Session.Receivers

/-!
# `for` loops do what they say

A `for` loop is a tree of blocks and a `while` loop.  With an increment, the body of that loop is a block, so there is a
new scope for each pass that the text of the loop does not show.  This module runs a loop directly, in the scopes that
its text shows, and compares.

* `repeatLoop`, `runLoop` — a loop without its tree: one scope for the initializer, and in it condition, body and
  increment, over and over.
* `Surroundings.inLoop` — what surrounds the clauses of a loop in its text.
* `LoopAddresses` — the lexical addresses of the clauses there.  The clauses are nodes of their own, under other ids,
  since the distances of the tree count the scopes of the passes.
* `Machine.Settled m bound` — the machine is in a scope of its heap, and the heap is closed.
* `SameEffects`, `SameRuns` — runs that have the same outcome, output, and effects on variables, fields and arrays.

Principal results: `forLoop_paired` — the tree and the loop match, step by step; `forLoop_meaning` — a loop of a program
that is resolved without an error does the same as the loop run directly; `Session.Visits.settled` — the machines of a
session are settled.
-/

set_option autoImplicit false

namespace Scriptlet

open Exec

/-! ## Loops run directly -/

/-- The value of a clause of a loop; a missing clause has the given value. -/
def evaluateClause (steps : Nat) (missing : Value) : Option Expr → Exec Value
  | none => pure missing
  | some e => evaluate steps e

/-- Repeats a loop in the current scope: the condition, and if it holds the body, and then the increment. -/
def repeatLoop : Nat → Option Expr → Option Expr → Stmt → Exec Flow
  | 0, _, _, _ => exhausted
  | steps + 1, test, step, body => do
      let holds ← evaluateClause steps (.bool true) test
      if holds.isTruthy then
        match ← execute steps body with
        | .normal =>
            let _ ← evaluateClause steps .null step
            repeatLoop steps test step body
        | .returned value => return .returned value
      else return .normal

/-- Runs a loop: with an initializer in a scope of its own, in which the initializer is executed first. -/
def runLoop (steps : Nat) (init : Option Stmt) (test step : Option Expr) (body : Stmt) : Exec Flow :=
  match init with
  | none => repeatLoop steps test step body
  | some init => do
      let scope ← newScope (← currentScope) []
      inScope scope do
        match ← execute steps init with
        | .normal => repeatLoop steps test step body
        | .returned value => return .returned value

/-- One pass of a loop whose condition holds. -/
def loopPass (steps : Nat) (step : Option Expr) (body : Stmt) : Exec Flow := do
  match ← execute steps body with
  | .normal =>
      let _ ← evaluateClause steps .null step
      return .normal
  | .returned value => return .returned value

theorem repeatLoop_succ (steps : Nat) (test step : Option Expr) (body : Stmt) :
    repeatLoop (steps + 1) test step body = (do
      let holds ← evaluateClause steps (.bool true) test
      if holds.isTruthy then
        match ← loopPass steps step body with
        | .normal => repeatLoop steps test step body
        | .returned value => return .returned value
      else return .normal) := by
  have hpass : (do
      match ← execute steps body with
      | .normal =>
          let _ ← evaluateClause steps .null step
          repeatLoop steps test step body
      | .returned value => return .returned value) = (do
      match ← loopPass steps step body with
      | .normal => repeatLoop steps test step body
      | .returned value => return .returned value) := by
    unfold loopPass
    rw [bind_assoc]
    refine bind_congr fun flow => ?_
    cases flow with
    | normal => simp only [bind_assoc, pure_bind]
    | returned value => simp only [pure_bind]
  rw [repeatLoop, hpass]

/-- A pass without an increment is the body. -/
theorem loopPass_none (steps : Nat) (body : Stmt) : loopPass steps none body = execute steps body := by
  have hflow : loopPass steps none body = execute steps body >>= pure := by
    refine bind_congr fun flow => ?_
    cases flow with
    | normal => rfl
    | returned value => rfl
  rw [hflow, bind_pure]

/-! ## The tree of a loop -/

/-- The body of the `while` loop that a `for` loop is made of. -/
def Stmt.withStep (step : Option Expr) (body : Stmt) : Stmt :=
  match step with
  | some e => .block [body, .expr e]
  | none => body

/-- The condition of the `while` loop that a `for` loop is made of. -/
def Expr.orTrue (test : Option Expr) : Expr := test.getD (.lit (.bool true))

theorem Stmt.forLoop_none (test step : Option Expr) (body : Stmt) :
    Stmt.forLoop none test step body = .whileLoop (.orTrue test) (.withStep step body) := rfl

theorem Stmt.forLoop_some (init : Stmt) (test step : Option Expr) (body : Stmt) :
    Stmt.forLoop (some init) test step body = .block [init, .whileLoop (.orTrue test) (.withStep step body)] := rfl

/-- The last statement of a block with steps for it and for the end of the block. -/
theorem executeAll_last (steps : Nat) (s : Stmt) : executeAll (steps + 2) [s] = execute (steps + 1) s := by
  have hflow : executeAll (steps + 2) [s] = execute (steps + 1) s >>= pure := by
    rw [executeAll]
    refine bind_congr fun flow => ?_
    cases flow with
    | normal => rfl
    | returned value => rfl
  rw [hflow, bind_pure]

theorem executeAll_one (s : Stmt) (ss : List Stmt) : executeAll 1 (s :: ss) = exhausted := rfl

/-! ## Steps of the two runs -/

section Within

variable {side : Side} {extra steps steps' : Nat}

/-- The first run takes a step of its own. -/
theorem Side.Within.drop (h : side.Within (extra + 1) (steps + 1) steps') : side.Within extra steps steps' := by
  cases side with
  | first => exact Nat.le_of_succ_le h
  | second => exact Nat.le_of_succ_le_succ h

/-- Both runs take a step. -/
theorem Side.Within.pred (h : side.Within extra (steps + 1) (steps' + 1)) : side.Within extra steps steps' := by
  cases side with
  | first => exact Nat.le_of_succ_le_succ h
  | second =>
      have h : steps' + 1 + extra ≤ steps + 1 := h
      show steps' + extra ≤ steps
      omega

theorem Side.Within.mono (h : side.Within (extra + 1) steps steps') : side.Within extra steps steps' := by
  cases side with
  | first => exact h
  | second => exact Nat.le_of_succ_le h

theorem Side.Within.zero (h : side.Within extra steps steps') : side.Within 0 steps steps' := by
  cases side with
  | first => exact h
  | second => exact Nat.le_of_add_right_le h

/-- Only a first run that is the measure can be without steps that it needs. -/
theorem Side.Within.first (h : side.Within (extra + 1) 0 steps') : side = .first := by
  cases side with
  | first => rfl
  | second => exact absurd h (Nat.not_succ_le_zero _)

end Within

/-! ## Passes -/

/-- The scopes around the body of a loop: with an increment, there is one of the first side. -/
def Shift.inPass (σ : Shift) (step : Option Expr) : Shift :=
  match step with
  | some _ => false :: σ
  | none => σ

section Paired

variable {C : Comparison} {σ : Shift} {f : NodeId → NodeId} {steps steps' : Nat}

/-- The body and the increment, in a scope of both sides or of one. -/
theorem executeAll_pass_paired {body : Stmt} (hbody : body.Shifted C.table C.table' f σ) {e : Expr}
    (he : σ.RefersAll C.table C.table' f e.references) (hwithin : C.side.Within 3 steps steps') :
    Exec.Paired C σ (executeAll steps [body, .expr e]) (loopPass steps' (some (e.mapIds f)) (body.mapIds f)) := by
  cases steps with
  | zero => exact paired_exhausted hwithin.first
  | succ steps =>
      have hwithin := hwithin.drop
      rw [executeAll, loopPass]
      refine ((stepsPaired hwithin.zero).exec hbody).bind fun flow => ?_
      cases flow with
      | returned value => exact .pure _
      | normal =>
          rcases steps with _ | _ | steps
          · exact paired_exhausted hwithin.first
          · dsimp only
            rw [executeAll_one]
            exact paired_exhausted hwithin.drop.first
          · dsimp only
            rw [executeAll_last, execute]
            exact ((stepsPaired hwithin.drop.drop.zero).eval he).bind fun _ => .pure _

/-- One pass. -/
theorem withStep_paired {step : Option Expr} {body : Stmt}
    (hbody : body.Shifted C.table C.table' f (σ.inPass step))
    (hstep : ∀ e ∈ step, Shift.RefersAll C.table C.table' f (false :: σ) e.references)
    (hwithin : C.side.Within 4 steps steps') :
    Exec.Paired C σ (execute steps (.withStep step body))
      (loopPass steps' (step.map (Expr.mapIds f)) (body.mapIds f)) := by
  cases step with
  | none =>
      rw [Option.map_none, loopPass_none]
      exact (stepsPaired hwithin.zero).exec hbody
  | some e =>
      cases steps with
      | zero => exact paired_exhausted hwithin.first
      | succ steps =>
          rw [Stmt.withStep, execute]
          exact paired_blockFirst (executeAll_pass_paired hbody (hstep e rfl) hwithin.drop)

/-- The condition. -/
theorem orTrue_paired {test : Option Expr} (htest : ∀ e ∈ test, σ.RefersAll C.table C.table' f e.references)
    (hwithin : C.side.Within 1 steps steps') :
    Exec.Paired C σ (evaluate steps (.orTrue test))
      (evaluateClause steps' (.bool true) (test.map (Expr.mapIds f))) := by
  cases test with
  | some e => exact (stepsPaired hwithin.zero).eval (htest e rfl)
  | none =>
      cases steps with
      | zero => exact paired_exhausted hwithin.first
      | succ steps => exact .pure _

/-- **The `while` loop of the tree and the repeated passes match.**  By induction on the steps of the second run: both
go on with one step less. -/
theorem loop_paired {test step : Option Expr} {body : Stmt}
    (htest : ∀ e ∈ test, σ.RefersAll C.table C.table' f e.references)
    (hbody : body.Shifted C.table C.table' f (σ.inPass step))
    (hstep : ∀ e ∈ step, Shift.RefersAll C.table C.table' f (false :: σ) e.references)
    (hwithin : C.side.Within 4 steps steps') :
    Exec.Paired C σ (loop steps (.orTrue test) (.withStep step body))
      (repeatLoop steps' (test.map (Expr.mapIds f)) (step.map (Expr.mapIds f)) (body.mapIds f)) := by
  induction steps' generalizing steps with
  | zero =>
      cases hside : C.side with
      | second => exact exhausted_paired hside
      | first =>
          rw [hside] at hwithin
          obtain rfl : steps = 0 := Nat.le_zero.mp hwithin
          exact paired_exhausted hside
  | succ steps' ih =>
      cases steps with
      | zero => exact paired_exhausted hwithin.first
      | succ steps =>
          have hwithin := hwithin.pred
          rw [loop, repeatLoop_succ]
          refine (orTrue_paired htest hwithin.mono.mono.mono).bind fun holds => ?_
          split
          · refine (withStep_paired hbody hstep hwithin).bind fun flow => ?_
            cases flow with
            | normal => exact ih hwithin
            | returned value => exact .pure _
          · exact .pure _

end Paired

/-! ## The clauses in the text -/

/-- What surrounds the condition, body and increment of a loop in its text. -/
def Surroundings.inLoop (Γ : Surroundings) : Option Stmt → Surroundings
  | none => Γ
  | some init => Γ.inBlock.declare init.names

/-- The clauses of a loop have, under renamed ids, their lexical addresses in the text. -/
structure LoopAddresses (T : DistanceTable) (f : NodeId → NodeId) (Γ : Surroundings) (init : Option Stmt)
    (test step : Option Expr) (body : Stmt) : Prop where
  initializer : ∀ s ∈ init, T.Addresses f (Stmt.At Γ.inBlock s)
  condition : ∀ e ∈ test, T.Addresses f (Stmt.At (Γ.inLoop init) (.expr e))
  repeated : T.Addresses f (Stmt.At (Γ.inLoop init) body)
  increment : ∀ e ∈ step, T.Addresses f (Stmt.At (Γ.inLoop init) (.expr e))

section Clauses

variable {T T' : DistanceTable} {f : NodeId → NodeId} {Γ : Surroundings} {init : Option Stmt} {test step : Option Expr}
  {body : Stmt}

/-- The initializer in the tree of a loop. -/
theorem addresses_init {s : Stmt} (h : T.Addresses id (Stmt.At Γ (Stmt.forLoop (some s) test step body))) :
    T.Addresses id (Stmt.At Γ.inBlock s) := by
  refine h.mono fun hc => ?_
  rw [Stmt.forLoop_some]
  refine @Stmt.At.block _ _ [] _ _ _ ?_
  rwa [show Stmt.namesAll [] = [] from rfl, Surroundings.declare_nil]

/-- The `while` loop in the tree of a loop. -/
theorem addresses_while (h : T.Addresses id (Stmt.At Γ (Stmt.forLoop init test step body))) :
    T.Addresses id (Stmt.At (Γ.inLoop init) (.whileLoop (.orTrue test) (.withStep step body))) := by
  cases init with
  | none => exact h
  | some s =>
      refine h.mono fun hc => ?_
      rw [Stmt.forLoop_some]
      refine @Stmt.At.block _ _ [s] [] _ _ ?_
      rwa [Stmt.namesAll_cons, show Stmt.namesAll [] = [] from rfl, List.append_nil]

/-- The condition: it stands in the same scopes in the tree and in the text. -/
theorem test_shifted {σ : Shift} (hσ : Surroundings.Aligned σ (Γ.inLoop init) (Γ.inLoop init))
    (h : T.Addresses id (Stmt.At Γ (Stmt.forLoop init test step body)))
    (h' : LoopAddresses T' f Γ init test step body) : ∀ e ∈ test, σ.RefersAll T T' f e.references := by
  rintro e ⟨⟩
  exact (addresses_while h).refers (h'.condition e rfl) hσ (fun _ => .whileTest) fun _ => .expr

/-- The body: in the tree it stands in one more scope if there is an increment. -/
theorem body_shifted {σ : Shift} (hσ : Surroundings.Aligned σ (Γ.inLoop init) (Γ.inLoop init))
    (h : T.Addresses id (Stmt.At Γ (Stmt.forLoop init test step body)))
    (h' : LoopAddresses T' f Γ init test step body) (hnames : body.names = []) :
    body.Shifted T T' f (σ.inPass step) := by
  have hwhile := addresses_while h
  cases step with
  | none => exact body.shifted hσ (.inr hnames) (hwhile.mono .whileBody) h'.repeated
  | some e =>
      refine body.shifted (hσ.extra .block) (.inr hnames) (hwhile.mono fun hc => .whileBody ?_) h'.repeated
      refine @Stmt.At.block _ _ [] _ _ _ ?_
      rwa [show Stmt.namesAll [] = [] from rfl, Surroundings.declare_nil]

/-- The increment: in the tree it stands in the scope of the body, which declares nothing there. -/
theorem step_shifted {σ : Shift} (hσ : Surroundings.Aligned σ (Γ.inLoop init) (Γ.inLoop init))
    (h : T.Addresses id (Stmt.At Γ (Stmt.forLoop init test step body)))
    (h' : LoopAddresses T' f Γ init test step body) (hnames : body.names = []) :
    ∀ e ∈ step, Shift.RefersAll T T' f (false :: σ) e.references := by
  rintro e ⟨⟩
  refine (addresses_while h).refers (h'.increment e rfl) (hσ.extra .block) (fun node hnode => .whileBody ?_) fun _ => .expr
  refine @Stmt.At.block _ _ [body] [] _ _ ?_
  rw [Stmt.namesAll_cons, hnames, show Stmt.namesAll [] = [] from rfl, List.append_nil, Surroundings.declare_nil]
  exact .expr hnode

end Clauses

/-- **The tree of a loop and the loop match**, in the scope around them. -/
theorem forLoop_paired {C : Comparison} {f : NodeId → NodeId} {Γ : Surroundings} {init : Option Stmt}
    {test step : Option Expr} {body : Stmt} {steps steps' : Nat}
    (h : C.table.Addresses id (Stmt.At Γ (Stmt.forLoop init test step body)))
    (h' : LoopAddresses C.table' f Γ init test step body) (hnames : body.names = [])
    (hwithin : C.side.Within 8 steps steps') :
    Exec.Paired C [] (execute steps (Stmt.forLoop init test step body))
      (runLoop steps' (init.map (Stmt.mapIds f)) (test.map (Expr.mapIds f)) (step.map (Expr.mapIds f))
        (body.mapIds f)) := by
  cases steps with
  | zero => exact paired_exhausted hwithin.first
  | succ steps =>
      have hwithin := hwithin.drop
      cases init with
      | none =>
          have hΓ : Surroundings.Aligned [] (Γ.inLoop none) (Γ.inLoop none) := .same Γ
          rw [Stmt.forLoop_none, execute]
          exact loop_paired (test_shifted hΓ h h') (body_shifted hΓ h h' hnames) (step_shifted hΓ h h' hnames)
            hwithin.mono.mono.mono
      | some s =>
          have hblock : Surroundings.Aligned [true] Γ.inBlock Γ.inBlock := .both ⟨.block, []⟩ (.same Γ)
          have hΓ : Surroundings.Aligned [true] (Γ.inLoop (some s)) (Γ.inLoop (some s)) :=
            hblock.declare (.inl (Shift.open_both []))
          have hinit : s.Shifted C.table C.table' f [true] :=
            s.shifted hblock (.inl (Shift.open_both [])) (addresses_init h) (h'.initializer s rfl)
          rw [Stmt.forLoop_some, execute]
          refine paired_block ?_
          cases steps with
          | zero => exact paired_exhausted hwithin.first
          | succ steps =>
              have hwithin := hwithin.drop
              rw [executeAll]
              refine ((stepsPaired hwithin.zero).exec hinit).bind fun flow => ?_
              cases flow with
              | returned value => exact .pure _
              | normal =>
                  rcases steps with _ | _ | steps
                  · exact paired_exhausted hwithin.first
                  · dsimp only
                    rw [executeAll_one]
                    exact paired_exhausted hwithin.drop.first
                  · dsimp only
                    rw [executeAll_last, execute]
                    exact loop_paired (test_shifted hΓ h h') (body_shifted hΓ h h' hnames)
                      (step_shifted hΓ h h' hnames) hwithin.drop.drop

/-! ## Runs with the same effects -/

/-- The machine is in a scope of its heap, nothing leads out of the heap, and the ids of its functions are below a
bound. -/
structure Machine.Settled (m : Machine) (bound : NodeId) : Prop where
  heap : m.heap.Bounded bound
  current : m.current < m.heap.scopes.size

/-- Two machines have the same output, the same scope, the same variables in the first `size` scopes, and the same
fields, elements of arrays, and functions and classes by name and number of parameters. -/
structure SameEffects (size : Nat) (m m' : Machine) : Prop where
  output : m'.sink = m.sink
  readings : m'.ticks = m.ticks
  current : m'.current = m.current
  scopes : ∀ i < size, m'.heap.scope i = m.heap.scope i
  values : m.heap.LooksLike m'.heap

/-- Two ways to run have the same outcomes with the same effects, from the machines `m` and `m'`; and so they end from
the same machines.  How many steps they take is their own affair. -/
structure SameRuns {α : Type} (run run' : Nat → Exec α) (m m' : Machine) : Prop where
  first : ∀ {steps outcome m₁}, (run steps).Ends m outcome m₁ →
    ∃ steps' m₁', (run' steps').Ends m' outcome m₁' ∧ SameEffects m.heap.scopes.size m₁ m₁'
  second : ∀ {steps' outcome m₁'}, (run' steps').Ends m' outcome m₁' →
    ∃ steps m₁, (run steps).Ends m outcome m₁ ∧ SameEffects m.heap.scopes.size m₁ m₁'

section Effects

variable {C : Comparison} {P P₁ : Pairing} {m m' m₁ m₁' : Machine} {α : Type} {x x' : Exec α}

theorem Reached.sameEffects (h : Reached C P P₁ [] m m' m₁ m₁') : SameEffects C.size m₁ m₁' where
  output := h.paired.sink
  readings := h.paired.ticks
  current := h.paired.facing.1.symm
  scopes := fun _ hi => h.paired.heap.scopes.scope_eq hi
  values := h.paired.heap.looksLike

/-- A first run that is the measure. -/
theorem Matches.ends_second (hr : Matches C P [] m m' (x m) (x' m')) (hside : C.side = .first)
    {outcome : Except RunError α} (hends : x.Ends m outcome m₁) :
    ∃ m₁', x'.Ends m' outcome m₁' ∧ SameEffects C.size m₁ m₁' := by
  generalize hr' : x' m' = r' at hr
  cases hends with
  | ok hx =>
      rw [hx] at hr
      cases hr with
      | ok h => exact ⟨_, .ok hr', h.sameEffects⟩
      | second hside' => cases hside.symm.trans hside'
  | error hx =>
      rw [hx] at hr
      cases hr with
      | halted hhalt h =>
          cases hhalt with
          | error e => exact ⟨_, .error hr', h.sameEffects⟩
      | second hside' => cases hside.symm.trans hside'

/-- A second run that is the measure. -/
theorem Matches.ends_first (hr : Matches C P [] m m' (x m) (x' m')) (hside : C.side = .second)
    {outcome : Except RunError α} (hends : x'.Ends m' outcome m₁') :
    ∃ m₁, x.Ends m outcome m₁ ∧ SameEffects C.size m₁ m₁' := by
  generalize hr' : x m = r at hr
  cases hends with
  | ok hx =>
      rw [hx] at hr
      cases hr with
      | ok h => exact ⟨_, .ok hr', h.sameEffects⟩
      | first hside' => cases hside.symm.trans hside'
  | error hx =>
      rw [hx] at hr
      cases hr with
      | halted hhalt h =>
          cases hhalt with
          | error e => exact ⟨_, .error hr', h.sameEffects⟩
      | first hside' => cases hside.symm.trans hside'

end Effects

/-- Runs that match with either side as the measure. -/
theorem sameRuns_of_paired {α : Type} {run run' : Nat → Exec α} {m : Machine} {bound : NodeId} (hm : m.Settled bound)
    {table' : DistanceTable} (htable : ∀ id < bound, table'.distance? id = m.table.distance? id) (extra : Nat)
    (hpaired : ∀ (side : Side) (steps steps' : Nat), side.Within extra steps steps' →
      Exec.Paired ⟨side, m.table, table', m.heap.scopes.size⟩ [] (run steps) (run' steps')) :
    SameRuns run run' m { m with table := table' } := by
  have hstart : ∀ side, Machine.Paired ⟨side, m.table, table', m.heap.scopes.size⟩ (.refl m.heap) [] m
      { m with table := table' } :=
    fun side => ⟨hm.heap.paired htable, ⟨rfl, hm.current⟩, rfl, rfl, rfl, rfl, rfl⟩
  constructor
  · intro steps outcome m₁ hends
    have hr := hpaired .first steps steps (Nat.le_refl steps) _ _ _ (hstart .first)
    exact ⟨steps, hr.ends_second rfl hends⟩
  · intro steps' outcome m₁' hends
    have hr := hpaired .second (steps' + extra) steps' (Nat.le_refl _) _ _ _ (hstart .second)
    exact ⟨steps' + extra, hr.ends_first rfl hends⟩

/-- A statement of a program that is resolved without an error has its lexical addresses. -/
theorem Program.At.addresses {p : Program} {table T : DistanceTable} (herrors : (resolve table p).errors = [])
    (hids : (Reference.ids (Stmt.referencesAll p)).Nodup)
    (hfree : ∀ id ∈ Reference.ids (Stmt.referencesAll p), table.distance? id = none) {Γ : Surroundings} {s : Stmt}
    (hat : p.At Γ (.stmt s))
    (htable : ∀ id ∈ Reference.ids s.references, T.distance? id = (resolve table p).table.distance? id) :
    T.Addresses id (Stmt.At Γ s) := by
  refine ⟨fun {Δ node r} hnode href d => ?_⟩
  have hat := Program.At.trans hat hnode
  have hplaced : node.Placed Δ := by
    cases node with
    | this id line => exact (Program.keepsRules herrors).this hat
    | _ => trivial
  rw [id_eq, htable r.id (hnode.splits.mem_ids href), Program.At.distance?_eq_some hat href hids hfree hplaced]

/-- The clauses of a loop are addressed by the resolver, in a program that has them where they stand in the text. -/
theorem LoopAddresses.of_program {q : Program} {table : DistanceTable} (herrors : (resolve table q).errors = [])
    (hids : (Reference.ids (Stmt.referencesAll q)).Nodup)
    (hfree : ∀ id ∈ Reference.ids (Stmt.referencesAll q), table.distance? id = none) {copy : NodeId → NodeId}
    {Γ : Surroundings} {init : Option Stmt} {test step : Option Expr} {body : Stmt}
    (hinit : ∀ s ∈ init, q.At Γ.inBlock (.stmt (s.mapIds copy)))
    (htest : ∀ e ∈ test, q.At (Γ.inLoop init) (.stmt (.expr (e.mapIds copy))))
    (hbody : q.At (Γ.inLoop init) (.stmt (body.mapIds copy)))
    (hstep : ∀ e ∈ step, q.At (Γ.inLoop init) (.stmt (.expr (e.mapIds copy)))) :
    LoopAddresses (resolve table q).table copy Γ init test step body := by
  have haddresses : ∀ {Δ : Surroundings} {s : Stmt}, q.At Δ (.stmt (s.mapIds copy)) →
      (resolve table q).table.Addresses copy (Stmt.At Δ s) :=
    fun hat => (Program.At.addresses herrors hids hfree hat fun _ _ => rfl).of_mapIds
  refine ⟨fun s hs => haddresses (hinit s hs), fun e he => ?_, haddresses hbody, fun e he => ?_⟩
  · exact haddresses (s := .expr e) (htest e he)
  · exact haddresses (s := .expr e) (hstep e he)

/-- The machines of a session are settled, wherever its sources have come to. -/
theorem Session.Visits.settled {sink : Sink} {clock : Nat → Float} {steps : Nat} {sources : List String} {Q : Point}
    (hvisit : Session.Visits steps (Session.initial sink clock) sources Q) : ∃ bound, Q.machine.Settled bound := by
  obtain ⟨⟨L, F, hframed⟩, -⟩ := Session.Framed.visits hvisit (Session.framed_initial sink clock)
  obtain ⟨L', -, Γ, hfits⟩ := Session.Fits.visits hvisit (Session.fits_initial false sink clock) fun _ _ => nofun
  have hinhabited := hfits.ready.heap.inhabited
  refine ⟨L'.bound, ⟨hinhabited, fun i j hj => ?_, fun i => ?_, fun i entry hentry => ?_⟩,
    hfits.covers.lt_size hinhabited⟩
  · exact Nat.lt_trans (hframed.steady.heap.nested i j hj) (Heap.lt_size_of_enclosing hj)
  · obtain ⟨⟨Γ, hcovers, hscoped⟩, -⟩ := hfits.ready.heap.functions i
    exact ⟨hcovers.lt_size hinhabited, hscoped.bounded⟩
  · obtain ⟨Γ, hcovers, hscoped⟩ := hfits.ready.heap.methods i entry hentry
    exact ⟨hcovers.lt_size hinhabited, hscoped.bounded⟩

/-! ## The meaning of a loop -/

/-- **A `for` loop does what it says.**  Take a loop, with any of its clauses, that stands in a program which is resolved
without an error, and whose body declares nothing in the scope around it; and a settled machine that has the distances
of the loop.  To execute the tree of the loop has the same outcome, output and effects as to run the loop directly, and
so has whatever is executed after it in the same scope, with the functions and classes that the loop has left behind.

The loop that is run directly has its clauses under the ids that `copy` gives them, with their lexical addresses in
`table'`; other nodes, below the bound, have the same distances in both. -/
theorem forLoop_meaning {p : Program} {table : DistanceTable} (herrors : (resolve table p).errors = [])
    (hids : (Reference.ids (Stmt.referencesAll p)).Nodup)
    (hfree : ∀ id ∈ Reference.ids (Stmt.referencesAll p), table.distance? id = none) {Γ : Surroundings}
    {init : Option Stmt} {test step : Option Expr} {body : Stmt}
    (hat : p.At Γ (.stmt (Stmt.forLoop init test step body))) (hnames : body.names = []) {m : Machine} {bound : NodeId}
    (hm : m.Settled bound) (htable : ∀ id ∈ Reference.ids (Stmt.forLoop init test step body).references,
      m.table.distance? id = (resolve table p).table.distance? id)
    {copy : NodeId → NodeId} {table' : DistanceTable}
    (hbelow : ∀ id < bound, table'.distance? id = m.table.distance? id)
    (hcopy : LoopAddresses table' copy Γ init test step body) (later : List Stmt)
    (hlater : ∀ r ∈ Stmt.referencesAll later, r.id < bound) :
    SameRuns
      (fun steps => do
        let flow ← execute steps (Stmt.forLoop init test step body)
        return (flow, ← executeAll steps later))
      (fun steps => do
        let flow ← runLoop steps (init.map (Stmt.mapIds copy)) (test.map (Expr.mapIds copy))
          (step.map (Expr.mapIds copy)) (body.mapIds copy)
        return (flow, ← executeAll steps later))
      m { m with table := table' } := by
  have hloop := Program.At.addresses herrors hids hfree hat htable
  refine sameRuns_of_paired hm hbelow 8 fun side steps steps' hwithin => ?_
  refine (forLoop_paired hloop hcopy hnames hwithin).bind fun flow => ?_
  have hshifted : Stmt.ShiftedAll m.table table' id [] later :=
    Stmt.shiftedAll_id nofun fun r hr => hbelow r.id (hlater r hr)
  have hlaterPaired := (stepsPaired (C := ⟨side, m.table, table', m.heap.scopes.size⟩) hwithin.zero).execAll hshifted
  rw [Stmt.mapIdsAll_id] at hlaterPaired
  exact hlaterPaired.bind fun last => .pure (flow, last)

/-- Clauses of a loop that runs once: its body makes a function that looks at the variable of the loop. -/
def lookInit : Stmt := .var ⟨"go", 2⟩ (some (.lit (.bool true)))

def lookTest : Expr := .var 0 ⟨"go", 2⟩

def lookStep : Expr := .assign 1 ⟨"go", 2⟩ (.lit (.bool false))

def lookBody : Stmt :=
  .block [
    .function (.mk ⟨"look", 3⟩ [] [.ret 3 (some (.var 2 ⟨"go", 3⟩))]),
    .expr (.assign 3 ⟨"f", 4⟩ (.var 4 ⟨"look", 4⟩))]

/-- A program with the loop. -/
def lookProgram : Program :=
  [.var ⟨"f", 1⟩ none, .forLoop (some lookInit) (some lookTest) (some lookStep) lookBody]

/-- The clauses as other nodes, one after another in a block. -/
def lookClauses : Program :=
  [.block (Stmt.mapIdsAll (· + 10) [lookInit, .expr lookTest, lookBody, .expr lookStep])]

/-- The table of the program. -/
def lookTable : DistanceTable := (resolve .empty lookProgram).table

/-- A machine that has come to the loop. -/
def lookMachine : Machine :=
  let m := Machine.initial .unlimited fun _ => 0
  { m with heap := m.heap.define globalScope "f" .null, table := lookTable }

theorem lookMachine_settled : lookMachine.Settled 10 := by
  refine ⟨⟨by decide, fun i j hj => ?_, fun i => ⟨Nat.zero_lt_one, nofun⟩, nofun⟩, by decide⟩
  -- The only scope is the global one.
  have hlt : i < 1 := Heap.lt_size_of_enclosing hj
  obtain rfl : i = 0 := Nat.lt_one_iff.mp hlt
  cases hj

/-- The function is called after the loop. -/
def lookLater : List Stmt := [.print (.call (.var 5 ⟨"f", 6⟩) 6 [])]

/-- The tree of the loop, and the call. -/
def lookTree (steps : Nat) : Exec (Flow × Flow) := do
  let flow ← execute steps (Stmt.forLoop (some lookInit) (some lookTest) (some lookStep) lookBody)
  return (flow, ← executeAll steps lookLater)

/-- The loop run directly, and the call. -/
def lookDirect (steps : Nat) : Exec (Flow × Flow) := do
  let flow ← runLoop steps (some (lookInit.mapIds (· + 10))) (some (lookTest.mapIds (· + 10)))
    (some (lookStep.mapIds (· + 10))) (lookBody.mapIds (· + 10))
  return (flow, ← executeAll steps lookLater)

/-- The function finds the variable as the increment has left it, also after the loop is run directly. -/
theorem forLoop_meaning_look :
    ∃ steps m₁, (lookDirect steps).Ends { lookMachine with table := (resolve lookTable lookClauses).table }
      (.ok (.normal, .normal)) m₁ ∧ m₁.sink.written = "false\n".toUTF8 := by
  have hids : Reference.ids (Stmt.referencesAll lookClauses) = [10, 12, 13, 14, 11] := by cbv
  have hfree : ∀ id ∈ Reference.ids (Stmt.referencesAll lookClauses), lookTable.distance? id = none := by
    intro id hid
    have hnot : id ∉ Reference.ids (Stmt.referencesAll lookProgram) := by
      revert id
      decide
    rw [lookTable, resolve_frame hnot, DistanceTable.distance?_empty]
  have hcopy : LoopAddresses (resolve lookTable lookClauses).table (· + 10) [] (some lookInit) (some lookTest)
      (some lookStep) lookBody := by
    refine .of_program (by cbv) (by decide) hfree ?_ ?_ ?_ ?_
    · rintro _ ⟨⟩
      exact ⟨[], _, [], rfl, @Stmt.At.block _ _ [] _ _ _ .self⟩
    · rintro _ ⟨⟩
      exact ⟨[], _, [], rfl, @Stmt.At.block _ _ [lookInit.mapIds (· + 10)] _ _ _ .self⟩
    · exact ⟨[], _, [], rfl, @Stmt.At.block _ _ [lookInit.mapIds (· + 10), .expr (lookTest.mapIds (· + 10))] _ _ _ .self⟩
    · rintro _ ⟨⟩
      exact ⟨[], _, [], rfl, @Stmt.At.block _ _ [lookInit.mapIds (· + 10), .expr (lookTest.mapIds (· + 10)),
        lookBody.mapIds (· + 10)] _ _ _ .self⟩
  have hbelow : ∀ id < 10, (resolve lookTable lookClauses).table.distance? id = lookMachine.table.distance? id := by
    have hsmall : ∀ n < 10, n ∉ [10, 12, 13, 14, 11] := by decide
    intro id hid
    refine resolve_frame ?_
    rw [hids]
    exact hsmall id hid
  have herrors : (resolve .empty lookProgram).errors = [] := by cbv
  have hsame : SameRuns lookTree lookDirect lookMachine
      { lookMachine with table := (resolve lookTable lookClauses).table } :=
    forLoop_meaning herrors (by decide) (fun id _ => DistanceTable.distance?_empty id) ⟨[_], _, [], rfl, .self⟩ rfl
      lookMachine_settled (fun _ _ => rfl) hbelow hcopy lookLater (by decide)
  have hends : (lookTree 20).Ends lookMachine (.ok (.normal, .normal)) ((lookTree 20).leaves lookMachine) :=
    .ok (by cbv)
  have hwritten : ((lookTree 20).leaves lookMachine).sink.written = "false\n".toUTF8 := by cbv
  obtain ⟨steps, m₁, hends', heffects⟩ := hsame.first hends
  refine ⟨steps, m₁, hends', ?_⟩
  rw [heffects.output, hwritten]

end Scriptlet
