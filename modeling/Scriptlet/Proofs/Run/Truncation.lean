import Mathlib
import Scriptlet.Proofs.Run.Narrowing
import Scriptlet.Proofs.Run.Restores

/-!
# A limited sink truncates and nothing else

* `Narrowing.point ν P` — the point `P` of a run without a limit, with the limited sink.
* `Narrowing.Truncated` — how the run on the limited sink ends, given how the run without a limit ends.

Principal results: `Narrowing.visits_iff` — the run on the limited sink comes to the points of the run without a limit
at which the output is within the limit, and to no other; `Narrowing.sink_truncates`.
-/

set_option autoImplicit false

namespace Scriptlet

open Point Exec

namespace Narrowing

variable {ν : Narrowing}

/-- A point with the limited sink. -/
def point (ν : Narrowing) (P : Point) : Point := ⟨P.steps, P.task, ν.cut P.machine⟩

/-! ## Points of both runs -/

/-- On the limited sink the action ends well exactly if it does so without a limit and its output fits. -/
def Agrees {α : Type} (ν : Narrowing) (x : Exec α) : Prop :=
  ∀ {m : Machine}, ν.wide.Continues m.sink → ν.Fits m → ∀ {a : α} {m' : Machine},
    x (ν.cut m) = .ok a m' ↔ ∃ m₁, x m = .ok a m₁ ∧ ν.Fits m₁ ∧ m' = ν.cut m₁

theorem agrees_of_truncates {α : Type} {x : Exec α} (h : ∀ m, ∃ K, Truncates ν K x m) : ν.Agrees x := by
  intro m hwide hfits a m'
  obtain ⟨K, hx⟩ := h m
  constructor
  · intro hrun
    by_cases hlater : ν.Fits (x.leaves m)
    · rw [hx.fits hwide hlater] at hrun
      cases hr : x m with
      | ok b m₁ =>
          rw [hr] at hrun
          cases hrun
          exact ⟨m₁, rfl, leaves_of_ok hr ▸ hlater, rfl⟩
      | error halt m₁ =>
          rw [hr] at hrun
          cases hrun
    · obtain ⟨c, -, -, hfull⟩ := hx.full hwide hfits hlater
      rw [hfull] at hrun
      cases hrun
  · rintro ⟨m₁, hr, hlater, rfl⟩
    rw [hx.fits hwide (leaves_of_ok hr ▸ hlater), hr]
    rfl

theorem agrees_of_silent {α : Type} {x : Exec α} (h : x.Silent) : ν.Agrees x :=
  agrees_of_truncates fun _ => ⟨fun _ => False, h.truncates⟩

theorem agrees_evaluate (steps : Nat) (e : Expr) : ν.Agrees (evaluate steps e) :=
  agrees_of_truncates fun m => ⟨_, (tasksTruncate ν ⟨steps, .eval e, m⟩ steps).eval (.refl _)⟩

theorem agrees_evaluateAll (steps : Nat) (es : List Expr) : ν.Agrees (evaluateAll steps es) :=
  agrees_of_truncates fun m => ⟨_, (tasksTruncate ν ⟨steps, .evalAll es, m⟩ steps).evalAll (.refl _)⟩

theorem agrees_execute (steps : Nat) (s : Stmt) : ν.Agrees (execute steps s) :=
  agrees_of_truncates fun m => ⟨_, (tasksTruncate ν ⟨steps, .exec s, m⟩ steps).exec (.refl _)⟩

theorem agrees_body (scope : ScopeId) (steps : Nat) (body : List Stmt) :
    ν.Agrees (inScope scope (executeAll steps body)) :=
  agrees_of_truncates fun m =>
    ⟨_, ((tasksTruncate ν ⟨steps, .execAll body, { m with current := scope }⟩ steps).execAll (.refl _)).inScope
      Crossed.inScope⟩

section Calls

variable {P Q R : Point}

/-- The tasks of a task on the limited sink are tasks that it has without a limit. -/
theorem exists_calls (hwide : ν.wide.Continues P.machine.sink) (hfits : ν.Fits P.machine)
    (hcall : (ν.point P).Calls R) : ∃ Q, P.Calls Q ∧ ν.Fits Q.machine ∧ R = ν.point Q := by
  obtain ⟨steps, task, m⟩ := P
  have hm : ν.Fits m := hfits
  change Calls ⟨steps, task, ν.cut m⟩ R at hcall
  cases hcall with
  | group | unary | binaryLeft | logicalLeft | ternaryTest | var | this | assignValue | updateOperand | array
    | indexPosition | callee | get | setObject | firstValue | invoke | expr | print | init | ifTest | whileLoop | ret
    | firstStmt | loopTest | topFirst => exact ⟨⟨_, _, m⟩, by constructor, hm, rfl⟩
  | callWith harity => exact ⟨_, .callWith harity, hfits, rfl⟩
  | binaryRight hl | logicalRight hl | assign hl | updateOld hl | indexTarget hl | arguments hl | setValue hl
    | otherValues hl =>
      obtain ⟨m₁, hl₁, hfits₁, rfl⟩ := (agrees_evaluate _ _ hwide hfits).mp hl
      exact ⟨⟨_, _, m₁⟩, by constructor; exact hl₁, hfits₁, rfl⟩
  | ternaryTrue htest hvalue | ternaryFalse htest hvalue | ifTrue htest hvalue | ifFalse htest hvalue
    | loopBody htest hvalue =>
      obtain ⟨m₁, htest₁, hfits₁, rfl⟩ := (agrees_evaluate _ _ hwide hfits).mp htest
      exact ⟨⟨_, _, m₁⟩, by constructor <;> assumption, hfits₁, rfl⟩
  | updateNew hl hold hnew =>
      obtain ⟨m₁, hl₁, hfits₁, rfl⟩ := (agrees_evaluate _ _ hwide hfits).mp hl
      have hwide₁ := hwide.trans ((evaluate_continues _ _).of_ok hl₁).sink
      obtain ⟨m₂, hold₁, hfits₂, rfl⟩ := (agrees_of_silent (silent_lookUp _ _) hwide₁ hfits₁).mp hold
      exact ⟨_, .updateNew hl₁ hold₁ hnew, hfits₂, rfl⟩
  | call hf hargs =>
      obtain ⟨m₁, hf₁, hfits₁, rfl⟩ := (agrees_evaluate _ _ hwide hfits).mp hf
      have hwide₁ := hwide.trans ((evaluate_continues _ _).of_ok hf₁).sink
      obtain ⟨m₂, hargs₁, hfits₂, rfl⟩ := (agrees_evaluateAll _ _ hwide₁ hfits₁).mp hargs
      exact ⟨_, .call hf₁ hargs₁, hfits₂, rfl⟩
  | construct hobject hmethod hbound =>
      cases hobject
      cases hbound
      exact ⟨_, .construct rfl hmethod rfl, hfits, rfl⟩
  | body hscope =>
      cases hscope
      exact ⟨_, .body rfl, hfits, rfl⟩
  | block hscope =>
      cases hscope
      exact ⟨_, .block rfl, hfits, rfl⟩
  | readThis hscope hbody hinit =>
      obtain ⟨m₁, hscope₁, hfits₁, rfl⟩ := (agrees_of_silent (silent_newScope _ _) hwide hfits).mp hscope
      have hwide₁ : ν.wide.Continues m₁.sink := by
        cases hscope₁
        exact hwide
      obtain ⟨m₂, hbody₁, hfits₂, rfl⟩ := (agrees_body _ _ _ hwide₁ hfits₁).mp hbody
      exact ⟨_, .readThis hscope₁ hbody₁ hinit, hfits₂, rfl⟩
  | otherStmts hfirst =>
      obtain ⟨m₁, hfirst₁, hfits₁, rfl⟩ := (agrees_execute _ _ hwide hfits).mp hfirst
      exact ⟨_, .otherStmts hfirst₁, hfits₁, rfl⟩
  | loopAgain htest hholds hbody =>
      obtain ⟨m₁, htest₁, hfits₁, rfl⟩ := (agrees_evaluate _ _ hwide hfits).mp htest
      have hwide₁ := hwide.trans ((evaluate_continues _ _).of_ok htest₁).sink
      obtain ⟨m₂, hbody₁, hfits₂, rfl⟩ := (agrees_execute _ _ hwide₁ hfits₁).mp hbody
      exact ⟨_, .loopAgain htest₁ hholds hbody₁, hfits₂, rfl⟩
  | topOthers hfirst =>
      obtain ⟨m₁, hfirst₁, hfits₁, rfl⟩ := (agrees_execute _ _ hwide hfits).mp hfirst
      exact ⟨_, .topOthers hfirst₁, hfits₁, rfl⟩

/-- The tasks of a task up to the limit are also its tasks on the limited sink. -/
theorem calls_point (hwide : ν.wide.Continues P.machine.sink) (hcall : P.Calls Q) (hlater : ν.Fits Q.machine) :
    (ν.point P).Calls (ν.point Q) := by
  have hfits : ν.Fits P.machine := hlater.of_continues hwide hcall.continues.sink
  cases hcall with
  | group | unary | binaryLeft | logicalLeft | ternaryTest | var | this | assignValue | updateOperand | array
    | indexPosition | callee | get | setObject | firstValue | invoke | expr | print | init | ifTest | whileLoop | ret
    | firstStmt | loopTest | topFirst => constructor
  | callWith harity => exact .callWith harity
  | binaryRight hl | logicalRight hl | assign hl | updateOld hl | indexTarget hl | arguments hl | setValue hl
    | otherValues hl =>
      constructor
      exact (agrees_evaluate _ _ hwide hfits).mpr ⟨_, hl, hlater, rfl⟩
  | ternaryTrue htest hvalue | ternaryFalse htest hvalue | ifTrue htest hvalue | ifFalse htest hvalue
    | loopBody htest hvalue =>
      have htest₁ := (agrees_evaluate _ _ hwide hfits).mpr ⟨_, htest, hlater, rfl⟩
      constructor <;> assumption
  | updateNew hl hold hnew =>
      have hwide₁ := hwide.trans ((evaluate_continues _ _).of_ok hl).sink
      have hfits₁ := hlater.of_continues hwide₁ ((lookUp_continues _ _).of_ok hold).sink
      have hl₁ := (agrees_evaluate _ _ hwide hfits).mpr ⟨_, hl, hfits₁, rfl⟩
      have hold₁ := (agrees_of_silent (silent_lookUp _ _) hwide₁ hfits₁).mpr ⟨_, hold, hlater, rfl⟩
      exact .updateNew hl₁ hold₁ hnew
  | call hf hargs =>
      have hwide₁ := hwide.trans ((evaluate_continues _ _).of_ok hf).sink
      have hfits₁ := hlater.of_continues hwide₁ ((evaluateAll_continues _ _).of_ok hargs).sink
      have hf₁ := (agrees_evaluate _ _ hwide hfits).mpr ⟨_, hf, hfits₁, rfl⟩
      have hargs₁ := (agrees_evaluateAll _ _ hwide₁ hfits₁).mpr ⟨_, hargs, hlater, rfl⟩
      exact .call hf₁ hargs₁
  | construct hobject hmethod hbound =>
      cases hobject
      cases hbound
      exact .construct rfl hmethod rfl
  | body hscope =>
      cases hscope
      exact .body rfl
  | block hscope =>
      cases hscope
      exact .block rfl
  | @readThis _ m m₁ _ _ _ _ _ hscope hbody hinit =>
      have hsink : m₁.sink = m.sink := by
        cases hscope
        rfl
      have hwide₁ : ν.wide.Continues m₁.sink := hsink ▸ hwide
      have hfits₁ : ν.Fits m₁ := hlater.of_continues hwide₁
        ((inScope_continues (executeAll_continues _ _)).of_ok hbody).sink
      have hscope₁ := (agrees_of_silent (silent_newScope _ _) hwide hfits).mpr ⟨_, hscope, hfits₁, rfl⟩
      have hbody₁ := (agrees_body _ _ _ hwide₁ hfits₁).mpr ⟨_, hbody, hlater, rfl⟩
      exact .readThis hscope₁ hbody₁ hinit
  | otherStmts hfirst => exact .otherStmts ((agrees_execute _ _ hwide hfits).mpr ⟨_, hfirst, hlater, rfl⟩)
  | loopAgain htest hholds hbody =>
      have hwide₁ := hwide.trans ((evaluate_continues _ _).of_ok htest).sink
      have hfits₁ := hlater.of_continues hwide₁ ((execute_continues _ _).of_ok hbody).sink
      have htest₁ := (agrees_evaluate _ _ hwide hfits).mpr ⟨_, htest, hfits₁, rfl⟩
      have hbody₁ := (agrees_execute _ _ hwide₁ hfits₁).mpr ⟨_, hbody, hlater, rfl⟩
      exact .loopAgain htest₁ hholds hbody₁
  | topOthers hfirst => exact .topOthers ((agrees_execute _ _ hwide hfits).mpr ⟨_, hfirst, hlater, rfl⟩)

/-- **The run on the limited sink comes to the points up to the limit**, and to no other. -/
theorem visits_iff (hwide : ν.wide.Continues P.machine.sink) (hfits : ν.Fits P.machine) :
    (ν.point P).Visits R ↔ ∃ Q, P.Visits Q ∧ ν.Fits Q.machine ∧ R = ν.point Q := by
  constructor
  · intro hvisit
    generalize hstart : ν.point P = start at hvisit
    induction hvisit generalizing P with
    | refl => exact ⟨P, .refl P, hfits, hstart.symm⟩
    | step hcall _ ih =>
        subst hstart
        obtain ⟨Q, hcall', hfits', rfl⟩ := exists_calls hwide hfits hcall
        obtain ⟨R, hvisit, hR, rfl⟩ := ih (hwide.trans hcall'.continues.sink) hfits' rfl
        exact ⟨R, .step hcall' hvisit, hR, rfl⟩
  · rintro ⟨Q, hvisit, hQ, rfl⟩
    induction hvisit with
    | refl => exact .refl _
    | step hcall hvisit ih =>
        have hwide' := hwide.trans hcall.continues.sink
        have hfits' := hQ.of_continues hwide' hvisit.continues.sink
        exact .step (calls_point hwide hcall hfits') (ih hwide' hfits' hQ)

end Calls

section Crosses

variable {left : Nat} {e : Expr} {m : Machine}

theorem Crosses.not_fits (h : ν.Crosses left e m) : ¬ ν.Fits ((execute (left + 1) (.print e)).leaves m) := by
  obtain ⟨_, _, _, _, hfull⟩ := h
  exact hfull

theorem Crosses.fits (hwide : ν.wide.Continues m.sink) (h : ν.Crosses left e m) : ν.Fits m := by
  obtain ⟨_, m₁, hvalue, hfits₁, _⟩ := h
  exact hfits₁.of_continues hwide ((evaluate_continues left e).of_ok hvalue).sink

/-- A `print` that exceeds the limit ends with the error of a full sink. -/
theorem Crosses.raises (hwide : ν.wide.Continues m.sink) (h : ν.Crosses left e m) :
    execute (left + 1) (.print e) (ν.cut m) =
      .error (.error (.sink .full)) (ν.cut ((execute (left + 1) (.print e)).leaves m)) := by
  have hfits := h.fits hwide
  obtain ⟨v, m₁, hvalue, hfits₁, hfull⟩ := h
  have hwide₁ := hwide.trans ((evaluate_continues left e).of_ok hvalue).sink
  rw [leaves_print hvalue hwide₁] at hfull ⊢
  have hvalue₁ := (agrees_evaluate left e hwide hfits).mpr ⟨m₁, hvalue, hfits₁, rfl⟩
  unfold execute
  refine (bind_of_ok hvalue₁).trans ((bind_of_ok rfl).trans ?_)
  exact bind_of_error (write_cut hwide₁ hfits₁ hfull)

end Crosses

end Narrowing

/-! ## Whole programs -/

theorem Exec.Ends.leaves {α : Type} {x : Exec α} {m m' : Machine} {outcome : Except RunError α}
    (h : x.Ends m outcome m') : x.leaves m = m' := by
  unfold Exec.leaves
  cases h with
  | ok h | error h => rw [h]

/-- Where the sink can flush, a program ends as its statements do, and the sink is flushed. -/
theorem interpret_ends_iff {steps : Nat} {p : Program} {m m' : Machine} {outcome : Except RunError Unit}
    (hflush : m.sink.flushFails = false) : (interpret steps p).Ends m outcome m' ↔
      ∃ m₁, (executeTop steps p).Ends m outcome m₁ ∧
        m' = { m₁ with current := globalScope, sink := m₁.sink.flush } := by
  have htop := executeTop_continues steps p m
  unfold Machine.ContinuesIn at htop
  cases hr : executeTop steps p m with
  | ok a m₁ =>
      rw [hr] at htop
      have hflush₁ : m₁.sink.flush.flushFails = false := htop.sink.flushFails.trans hflush
      have hrun : interpret steps p m = .ok () { m₁ with current := globalScope, sink := m₁.sink.flush } := by
        simp only [interpret, hr, Machine.finish, hflush₁, Bool.false_eq_true, if_false]
      constructor
      · rintro (h | h) <;> rw [hrun] at h <;> cases h
        exact ⟨m₁, .ok hr, rfl⟩
      · rintro ⟨m₂, h | h, rfl⟩ <;> rw [hr] at h <;> cases h
        exact .ok hrun
  | error halt m₁ =>
      rw [hr] at htop
      have hflush₁ : m₁.sink.flush.flushFails = false := htop.sink.flushFails.trans hflush
      cases halt with
      | error e =>
          have hrun : interpret steps p m =
              .error (.error e) { m₁ with current := globalScope, sink := m₁.sink.flush } := by
            simp only [interpret, hr, Machine.finish, hflush₁, Bool.false_eq_true, if_false]
          constructor
          · rintro (h | h) <;> rw [hrun] at h <;> cases h
            exact ⟨m₁, .error hr, rfl⟩
          · rintro ⟨m₂, h | h, rfl⟩ <;> rw [hr] at h <;> cases h
            exact .error hrun
      | fault f | exhausted =>
          constructor
          · rintro (h | h) <;> simp only [interpret, hr] at h <;> cases h
          · rintro ⟨m₂, h | h, rfl⟩ <;> rw [hr] at h <;> cases h

/-- A program that is about to run on a machine with the given sink. -/
def Point.onSink (steps : Nat) (p : Program) (m : Machine) (sink : Sink) : Point :=
  ⟨steps, .top p, { m with sink := sink }⟩

namespace Narrowing

/-- What the end of a run without a limit says about the end of the run on the limited sink. -/
structure Truncated (ν : Narrowing) (steps : Nat) (p : Program) (m : Machine) (outcome : Except RunError Unit)
    (last : Machine) (outcome' : Except RunError Unit) (last' : Machine) : Prop where
  /-- The limited sink has exactly the first bytes of the output, and is flushed. -/
  sink : last'.sink =
    Sink.flush { ν.narrow with written := ν.narrow.written ++ (last.sink.since ν.wide.written.size).extract 0 ν.room }
  /-- If all of the output fits, nothing else differs. -/
  same : (last.sink.since ν.wide.written.size).size ≤ ν.room →
    outcome' = outcome ∧ last' = { last with sink := last'.sink }
  /-- Otherwise the print fails whose line exceeds the limit, and the rest of the machine is as it is there without a
  limit. -/
  full : ν.room < (last.sink.since ν.wide.written.size).size → outcome' = .error (.sink .full) ∧
    ∃ left e q, (Point.onSink steps p m ν.wide).Visits ⟨left + 1, .exec (.print e), q⟩ ∧ ν.Crosses left e q ∧
      (Point.onSink steps p m ν.narrow).Visits ⟨left + 1, .exec (.print e), ν.cut q⟩ ∧
      execute (left + 1) (.print e) (ν.cut q) =
        .error (.error (.sink .full)) (ν.cut ((execute (left + 1) (.print e)).leaves q)) ∧
      last' = { (execute (left + 1) (.print e)).leaves q with current := globalScope, sink := last'.sink }
  /-- On the limited sink the run comes to the points at which the output without a limit is still within the limit, and
  to no other. -/
  points : ∀ R, (Point.onSink steps p m ν.narrow).Visits R ↔
    ∃ Q, (Point.onSink steps p m ν.wide).Visits Q ∧ ν.Fits Q.machine ∧ R = ν.point Q

theorem visits_onSink_iff (ν : Narrowing) (steps : Nat) (p : Program) (m : Machine) (R : Point) :
    (Point.onSink steps p m ν.narrow).Visits R ↔
      ∃ Q, (Point.onSink steps p m ν.wide).Visits Q ∧ ν.Fits Q.machine ∧ R = ν.point Q := by
  have hstart : ν.point (Point.onSink steps p m ν.wide) = Point.onSink steps p m ν.narrow := by
    rw [point, Point.onSink, Point.onSink, cut_start]
  rw [← hstart]
  exact visits_iff (.refl _) (ν.fits_start m)

variable {outcome : Except RunError Unit} {last : Machine}

/-- **A limited sink truncates and nothing else.**  Whatever program runs to its end without a limit: the limited sink
is left with exactly the first bytes of the output.  If they are all of it, the result and the machine are the same;
otherwise the result is the error of the full sink.  It is raised by the print whose line exceeds the limit, nothing is
executed after it, and variables and fields are as they are there without a limit. -/
theorem sink_truncates (ν : Narrowing) (steps : Nat) (p : Program) (m : Machine)
    (hends : (interpret steps p).Ends { m with sink := ν.wide } outcome last) :
    ∃ outcome' last', (interpret steps p).Ends { m with sink := ν.narrow } outcome' last' ∧
      ν.Truncated steps p m outcome last outcome' last' := by
  have hpoints := ν.visits_onSink_iff steps p m
  have htop := executeTop_truncates ν (Point.onSink steps p m ν.wide) steps p { m with sink := ν.wide } (.refl _)
  obtain ⟨m₁, hends₁, rfl⟩ := (interpret_ends_iff ν.wide_flush).mp hends
  have hleaves := hends₁.leaves
  by_cases hfits : ν.Fits m₁
  · have hcut := htop.fits (.refl _) (hleaves ▸ hfits)
    rw [cut_start] at hcut
    have hends₂ : (executeTop steps p).Ends { m with sink := ν.narrow } outcome (ν.cut m₁) := by
      cases hends₁ with
      | ok h => exact .ok (hcut.trans (by rw [h]; rfl))
      | error h => exact .error (hcut.trans (by rw [h]; rfl))
    refine ⟨outcome, _, (interpret_ends_iff ν.narrow_flush).mpr ⟨_, hends₂, rfl⟩, rfl, fun _ => ⟨rfl, rfl⟩, ?_, hpoints⟩
    intro hover
    exact absurd hfits (Nat.not_le_of_lt hover)
  · obtain ⟨c, hcrossed, hsink, hcut⟩ := htop.full (.refl _) (ν.fits_start m) (hleaves ▸ hfits)
    rw [hleaves] at hsink
    rw [cut_start] at hcut
    obtain ⟨left, e, q, i, hvisit, hcrosses, rfl⟩ := hcrossed
    have hwide : ν.wide.Continues q.sink := hvisit.continues.sink
    have hprint := (tasksTruncate ν ⟨left + 1, .exec (.print e), q⟩ (left + 1)).exec (.refl _)
    have hsame := cut_sink_of_continues (hwide.trans hprint.grows) hsink hcrosses.not_fits
    refine ⟨.error (.sink .full), _, (interpret_ends_iff ν.narrow_flush).mpr ⟨_, .error hcut, rfl⟩,
      congrArg Sink.flush hsame.symm, ?_, ?_, hpoints⟩
    · intro hwithin
      exact absurd hwithin hfits
    · intro _
      have hreached := (hpoints _).mpr ⟨_, hvisit, hcrosses.fits hwide, rfl⟩
      exact ⟨rfl, left, e, q, hvisit, hcrosses, hreached, hcrosses.raises hwide, rfl⟩

/-- A sink with room for four bytes. -/
def fourBytes : Narrowing := ⟨.unlimited, ⟨.empty, some 4, false, 0⟩, 4, rfl, rfl, rfl, rfl⟩

/-- Two lines of three bytes, with a note of how far the program has come. -/
def twoLines : Program := [
  .var ⟨"done", 1⟩ none,
  .print (.lit (.string "ab")),
  .block [.expr (.assign 0 ⟨"done", 3⟩ (.lit (.bool false))), .print (.lit (.string "cd"))],
  .expr (.assign 1 ⟨"done", 4⟩ (.lit (.bool true)))]

/-- A machine that has run nothing. -/
def twoLinesStart : Machine := Machine.initial .unlimited fun _ => 0

/-- The second line is cut after its first byte, and the note is that of the block. -/
theorem sink_truncates_fourBytes :
    (interpret 20 twoLines).Ends { twoLinesStart with sink := fourBytes.wide } (.ok ())
      ((interpret 20 twoLines).leaves { twoLinesStart with sink := fourBytes.wide }) ∧
    ∃ outcome' last', (interpret 20 twoLines).Ends { twoLinesStart with sink := fourBytes.narrow } outcome' last' ∧
      fourBytes.Truncated 20 twoLines twoLinesStart (.ok ())
        ((interpret 20 twoLines).leaves { twoLinesStart with sink := fourBytes.wide }) outcome' last' ∧
      outcome' = .error (.sink .full) ∧ last'.sink.written.data = #[97, 98, 10, 99] ∧
      last'.heap.search? globalScope "done" = some (.bool false) := by
  have hends : (interpret 20 twoLines).Ends { twoLinesStart with sink := fourBytes.wide } (.ok ())
      ((interpret 20 twoLines).leaves { twoLinesStart with sink := fourBytes.wide }) := .ok (by cbv)
  obtain ⟨outcome', last', hends', h⟩ := sink_truncates fourBytes 20 twoLines twoLinesStart hends
  refine ⟨hends, outcome', last', hends', h, (h.full (by cbv)).1, ?_, ?_⟩
  · rw [h.sink]
    cbv
  · rw [← hends'.leaves]
    cbv

end Narrowing

end Scriptlet
