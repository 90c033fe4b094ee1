import Mathlib
import Scriptlet.Proofs.Run.Returns
import Scriptlet.Proofs.Scoping.StaticRules
import Scriptlet.Proofs.Session.Receivers

/-!
# A return never escapes its call

The analysis refuses a `return` at top level, so every `return` that runs has a call around it.

* `ReturnRules steps` — what is true of `return` in any tree, on any machine.
* `Session.ReturnsToCalls steps s sources` — what is true of every `return` in the runs of sources.

Principal results: `Program.returnFree` — no `return` stands at the top level of a program without static errors;
`executeTop_eq` — such a program ends like its statements in a row; `Session.returns_never_escape`.
-/

set_option autoImplicit false

namespace Scriptlet

open Point

/-! ## Programs without a return at top level -/

theorem Surroundings.callable?_declare (Γ : Surroundings) (names : List String) :
    (Γ.declare names).callable? = Γ.callable? := by
  cases Γ <;> rfl

mutual
/-- A `return` that stands in a statement has the function or method of the statement around it. -/
theorem Stmt.exists_return : ∀ (s : Stmt) (Γ : Surroundings), s.returnFree = false →
    ∃ Δ line value, Stmt.At Γ s Δ (.stmt (.ret line value)) ∧ Δ.callable? = Γ.callable?
  | .ret line value, Γ, _ => ⟨Γ, line, value, .self, rfl⟩
  | .block body, Γ, h => by
      obtain ⟨Δ, line, value, ⟨before, s, after, rfl, hs⟩, hcallable⟩ := Stmt.exists_returnAll body Γ.inBlock h
      exact ⟨Δ, line, value, .block hs, hcallable⟩
  | .ifElse _ whenTrue none, Γ, h => by
      obtain ⟨Δ, line, value, hs, hcallable⟩ := Stmt.exists_return whenTrue Γ h
      exact ⟨Δ, line, value, .ifTrue hs, hcallable⟩
  | .ifElse _ whenTrue (some whenFalse), Γ, h => by
      rcases Bool.and_eq_false_iff.mp h with hfirst | hsecond
      · obtain ⟨Δ, line, value, hs, hcallable⟩ := Stmt.exists_return whenTrue Γ hfirst
        exact ⟨Δ, line, value, .ifTrue hs, hcallable⟩
      · obtain ⟨Δ, line, value, hs, hcallable⟩ := Stmt.exists_return whenFalse (Γ.declare whenTrue.names) hsecond
        exact ⟨Δ, line, value, .ifFalse hs, hcallable.trans (Γ.callable?_declare _)⟩
  | .whileLoop _ body, Γ, h => by
      obtain ⟨Δ, line, value, hs, hcallable⟩ := Stmt.exists_return body Γ h
      exact ⟨Δ, line, value, .whileBody hs, hcallable⟩
/-- The same of statements that follow one another. -/
theorem Stmt.exists_returnAll : ∀ (ss : List Stmt) (Γ : Surroundings), Stmt.returnFreeAll ss = false →
    ∃ Δ line value, Stmt.AtAll Γ ss Δ (.stmt (.ret line value)) ∧ Δ.callable? = Γ.callable?
  | s :: ss, Γ, h => by
      rcases Bool.and_eq_false_iff.mp h with hfirst | hrest
      · obtain ⟨Δ, line, value, hs, hcallable⟩ := Stmt.exists_return s Γ hfirst
        exact ⟨Δ, line, value, ⟨[], s, ss, rfl, (Γ.declare_nil).symm ▸ hs⟩, hcallable⟩
      · obtain ⟨Δ, line, value, ⟨before, t, after, rfl, ht⟩, hcallable⟩ :=
          Stmt.exists_returnAll ss (Γ.declare s.names) hrest
        refine ⟨Δ, line, value, ⟨s :: before, t, after, rfl, ?_⟩, hcallable.trans (Γ.callable?_declare _)⟩
        rwa [Stmt.namesAll_cons, Surroundings.declare_append]
end

/-- **No `return` stands at the top level of a program without static errors.** -/
theorem Program.returnFree {p : Program} {table : DistanceTable} (he : (resolve table p).errors = []) :
    Stmt.returnFreeAll p = true := by
  by_contra hreturn
  obtain ⟨Δ, line, value, hat, hcallable⟩ := Stmt.exists_returnAll p [] (Bool.eq_false_iff.mpr hreturn)
  exact (Program.keepsRules he).returns hat hcallable

theorem Stmt.returnFreeAll_of_suffix {ss p : List Stmt} (h : Stmt.returnFreeAll p = true) (hsuffix : ss <:+ p) :
    Stmt.returnFreeAll ss = true := by
  induction p with
  | nil => rwa [List.suffix_nil.mp hsuffix]
  | cons s rest ih =>
      rcases List.suffix_cons_iff.mp hsuffix with rfl | hrest
      · exact h
      · exact ih (Bool.and_eq_true_iff.mp h).2 hrest

theorem execute_returnFree {steps : Nat} {s : Stmt} {m m' : Machine} {flow : Flow} (hs : s.returnFree = true)
    (h : execute steps s m = .ok flow m') : flow = .normal := by
  have hflows : Flows ⟨steps, .exec s, m⟩ flow m' := h
  exact hflows.normal hs

/-- **Without a `return` at top level the flow of the statements says nothing**: a program ends like its statements in a
row. -/
theorem executeTop_eq {p : Program} (hp : Stmt.returnFreeAll p = true) (steps : Nat) (m : Machine) :
    executeTop steps p m = (executeAll steps p >>= fun _ => pure ()) m := by
  induction steps generalizing p m with
  | zero => rfl
  | succ steps ih =>
      cases p with
      | nil => rfl
      | cons s rest =>
          obtain ⟨hs, hrest⟩ := Bool.and_eq_true_iff.mp hp
          unfold executeTop executeAll
          cases hfirst : execute steps s m with
          | error halt m₁ => simp only [Bind.bind, EStateM.bind, hfirst]
          | ok flow m₁ =>
              obtain rfl := execute_returnFree hs hfirst
              rw [Exec.bind_of_ok hfirst, ih hrest]
              simp only [Bind.bind, EStateM.bind, hfirst]

/-! ## Points at top level -/

/-- Only the top level leads to the top level: to the statements that remain of a program. -/
theorem Point.Visits.top {P Q : Point} {rest : Program} (hvisit : P.Visits Q) (hQ : Q.task = .top rest) :
    ∃ p, P.task = .top p ∧ rest <:+ p := by
  induction hvisit with
  | refl => exact ⟨rest, hQ, List.suffix_rfl⟩
  | step hcall _ ih =>
      obtain ⟨p, hp, hsuffix⟩ := ih hQ
      cases hcall with
      | topOthers =>
          cases hp
          exact ⟨_, rfl, hsuffix.trans (List.suffix_cons _ _)⟩
      | _ => cases hp

/-! ## Rules -/

/-- What is true of `return` in every tree and on every machine. -/
structure ReturnRules (steps : Nat) : Prop where
  /-- A statement never returns if no `return` stands in it, outside functions and methods that it declares. -/
  free : ∀ {s m flow m'}, s.returnFree = true → execute steps s m = .ok flow m' → flow = .normal
  /-- What returns has a `return` inside it that does, with no call between. -/
  origin : ∀ {s m v m'}, execute steps s m = .ok (.returned v) m' →
    ∃ Q m'', Inside ⟨steps, .exec s, m⟩ Q ∧ Q.Returns v m'' ∧ m' = { m'' with current := m.current }
  /-- A `return` ends the blocks, branches and loops of a body at once. -/
  ends : ∀ {body m Q v m'}, Inside ⟨steps, .execAll body, m⟩ Q → Q.Returns v m' →
    executeAll steps body m = .ok (.returned v) { m' with current := m.current }
  /-- Its value is that of the innermost call around it; an initializer reads `this` instead. -/
  values : ∀ {f args m Q v m'}, Encloses ⟨steps, .invoke f args, m⟩ Q → Q.Returns v m' →
    invoke steps f args m =
      (if f.isInitializer then Exec.readAt f.closure 0 thisName else pure v) { m' with current := m.current }
  /-- No call has its value from elsewhere: without a `return` its body ends normally, and the value is null. -/
  calls : ∀ {f args m v m'}, f.isInitializer = false → invoke steps f args m = .ok v m' →
    (∃ Q m'', Encloses ⟨steps, .invoke f args, m⟩ Q ∧ Q.Returns v m'' ∧ m' = { m'' with current := m.current }) ∨
    v = .null ∧ ∃ B m'', Calls ⟨steps, .invoke f args, m⟩ B ∧ B.Flows .normal m'' ∧
      m' = { m'' with current := m.current }
  /-- A call of a class yields the new instance, whatever its constructor returns. -/
  instances : ∀ {c args line m v m'}, callWith steps (.classRef c) args line m = .ok v m' →
    v = .object m.heap.objects.size

theorem returnRules (steps : Nat) : ReturnRules steps where
  free := execute_returnFree
  origin := by
    intro s m v m' h
    have hflows : Flows ⟨steps, .exec s, m⟩ (.returned v) m' := h
    exact hflows.exists_return
  ends hinside hreturns := hinside.returns hreturns.2
  values := Encloses.invoke
  calls := invoke_origin
  instances := callWith_classRef

namespace Session

/-- What is true of every `return` while sources run one after another. -/
structure ReturnsToCalls (steps : Nat) (s : Session) (sources : List String) : Prop where
  /-- No statement returns at top level. -/
  top : ∀ {left t rest m flow m'}, Visits steps s sources ⟨left + 1, .top (t :: rest), m⟩ →
    execute left t m = .ok flow m' → flow = .normal
  /-- So nothing is lost where the flow is not looked at. -/
  discards : ∀ {left p m}, Visits steps s sources ⟨left, .top p, m⟩ →
    executeTop left p m = (executeAll left p >>= fun _ => pure ()) m
  /-- Every `return` has a call around it. -/
  enclosed : ∀ {Q v m'}, Visits steps s sources Q → Q.Returns v m' →
    ∃ left f args m, Visits steps s sources ⟨left, .invoke f args, m⟩ ∧ Encloses ⟨left, .invoke f args, m⟩ Q
  /-- In a constructor the value of the call is the object to which the constructor is bound. -/
  constructors : ∀ {left f args m Q v m'}, Visits steps s sources ⟨left, .invoke f args, m⟩ →
    f.isInitializer = true → Encloses ⟨left, .invoke f args, m⟩ Q → Q.Returns v m' →
    ∃ o, (m.heap.scope f.closure).names = [(thisName, .object o)] ∧
      invoke left f args m = .ok (.object o) { m' with current := m.current }

variable {s : Session} {steps : Nat} {sources : List String} {Q : Point}

/-- No `return` stands in what remains of a program at top level. -/
theorem Visits.returnFree {p : Program} (hvisit : Visits steps s sources Q) (hQ : Q.task = .top p) :
    Stmt.returnFreeAll p = true := by
  induction hvisit with
  | here hfound hvisit =>
      obtain ⟨-, herrors, -⟩ := analyse_program hfound
      obtain ⟨whole, hwhole, hsuffix⟩ := hvisit.top hQ
      cases hwhole
      exact Stmt.returnFreeAll_of_suffix (Program.returnFree herrors) hsuffix
  | later _ _ ih => exact ih hQ

/-- **Every `return` that runs has a call around it.** -/
theorem Visits.enclosed {v : Value} {m' : Machine} (hvisit : Visits steps s sources Q) (hreturns : Q.Returns v m') :
    ∃ I, Visits steps s sources I ∧ I.Encloses Q := by
  obtain ⟨⟨line, value, hret⟩, hflows⟩ := hreturns
  induction hvisit with
  | @here s source rest p Q hfound hvisit =>
      rcases hvisit.enclosed hflows.isStatement with hinside | ⟨I, hI, hencloses⟩ | ⟨left, t, ts, m, htop, hinside⟩
      · cases hinside.isStatement
      · exact ⟨I, .here hfound hI, hencloses⟩
      · -- At top level there is no `return` to come to.
        have htop' : Visits steps s (source :: rest) ⟨left + 1, .top (t :: ts), m⟩ := .here hfound htop
        have hfree := htop'.returnFree rfl
        have hQ := hinside.returnFree (Bool.and_eq_true_iff.mp hfree).1
        rw [hret] at hQ
        cases hQ
  | later hending _ ih =>
      obtain ⟨I, hI, hencloses⟩ := ih hflows hret
      exact ⟨I, .later hending hI, hencloses⟩

/-- **A return never escapes its call.**  Whatever sources run one after another in a session: no statement returns at
top level, so the flow that is dropped there is always normal, and every `return` that runs has a call around it.  In
any tree, a statement in which no `return` stands never returns, whatever it calls; and a `return` ends the body in
which it stands at once and gives exactly the innermost call its value, but a constructor yields its object. -/
theorem returns_never_escape (sink : Sink) (clock : Nat → Float) (steps : Nat) (sources : List String) :
    (Session.initial sink clock).ReturnsToCalls steps sources ∧ ∀ left, ReturnRules left := by
  refine ⟨⟨?_, ?_, ?_, ?_⟩, returnRules⟩
  · intro left t rest m flow m' hvisit hrun
    have hfree := hvisit.returnFree rfl
    exact execute_returnFree (Bool.and_eq_true_iff.mp hfree).1 hrun
  · intro left p m hvisit
    exact executeTop_eq (hvisit.returnFree rfl) left m
  · intro Q v m' hvisit hreturns
    obtain ⟨⟨left, task, m⟩, hI, hencloses⟩ := hvisit.enclosed hreturns
    have ⟨f, args, _, htask, _⟩ := hencloses
    cases htask
    exact ⟨left, f, args, m, hI, hencloses⟩
  · intro left f args m Q v m' hvisit hinit hencloses hreturns
    obtain ⟨⟨L, F, hframed⟩, -⟩ := Framed.visits hvisit (framed_initial sink clock)
    obtain ⟨fewer, scope, m₁, rfl, hscope, hbody⟩ := hencloses.body hreturns
    obtain ⟨o, hnames, hread⟩ := hframed.readThis hinit hscope hbody
    refine ⟨o, hnames, ?_⟩
    rw [hencloses.invoke hreturns, if_pos hinit, hread]

/-- A function that returns from a block in a branch in a loop, before it would print. -/
def loopReturn : Function :=
  ⟨.mk ⟨"f", 1⟩ [] [
    .whileLoop (.lit (.bool true))
      (.ifElse (.lit (.bool true)) (.block [.ret 1 (some (.lit (.bool false))), .print (.lit .null)]) none),
    .print (.lit .null)], globalScope, false⟩

/-- The value of the call is that of the `return`, which the call encloses. -/
theorem returns_never_escape_loop :
    ∃ Q m', Encloses ⟨12, .invoke loopReturn [], .initial .unlimited fun _ => 0⟩ Q ∧ Q.Returns (.bool false) m' ∧
      invoke 12 loopReturn [] (.initial .unlimited fun _ => 0) =
        .ok (.bool false) { m' with current := globalScope } := by
  have hrules := (returns_never_escape .unlimited (fun _ => 0) 0 []).2 12
  have hencloses : Encloses ⟨12, .invoke loopReturn [], .initial .unlimited fun _ => 0⟩ _ :=
    ⟨loopReturn, [], _, rfl, .body rfl, .step rfl .firstStmt <| .step rfl .whileLoop <| .step rfl (.loopBody rfl rfl) <|
      .step rfl (.ifTrue rfl rfl) <| .step rfl (.block rfl) <| .step rfl .firstStmt <| .refl rfl⟩
  have hreturns : ∀ m, Returns ⟨5, .exec (.ret 1 (some (.lit (.bool false)))), m⟩ (.bool false) m :=
    fun _ => ⟨⟨_, _, rfl⟩, rfl⟩
  exact ⟨_, _, hencloses, hreturns _, hrules.values hencloses (hreturns _)⟩

end Session

end Scriptlet
