import Mathlib
import Scriptlet.Proofs.Session.Layouts

/-!
# Access to names in sessions

What is filed about a reference before a program runs is true whenever the reference is evaluated, however many
sources ran before.

Principal results:

* `scopes_agree` — for any sources: the distance of a reference leads to a local scope, no scope is ever missing,
  no expression makes a global name, and every global name comes from a declaration at top level.
* `reads_find_names` — for guarded sources: no run ends in a fault, and every name that is read through a distance
  is bound there.
-/

set_option autoImplicit false

namespace Scriptlet

/-- The node id of a reference that is evaluated, read or assigned. -/
def Task.reference? : Task → Option NodeId
  | .eval (.var id _) => some id
  | .eval (.assign id _ _) => some id
  | .eval (.update id _ _ _) => some id
  | .eval (.this id _) => some id
  | .lookUp id _ => some id
  | .assign id _ _ => some id
  | _ => none

section Access

variable {L : Layout} {Q : Point} {α : Type} {D : String → Prop} {P : α → Machine → Prop} {x : Exec α}
  {m : Machine}

theorem Safe.leaves (h : Safe L D P x m) : Kept L D m (x.leaves m) := by
  unfold Safe at h
  unfold Exec.leaves
  cases hx : x m with
  | ok a m' =>
      rw [hx] at h
      exact h.1
  | error halt m' =>
      rw [hx] at h
      exact h.1

/-- The reference of a point is placed in the scopes around it. -/
theorem Point.FitsIn.reference {Γ : ScopeStack} {id : NodeId} (h : Q.FitsIn L Γ)
    (hid : Q.task.reference? = some id) : ∃ name access, L.Places Γ ⟨id, name, access⟩ := by
  obtain ⟨steps, task, m⟩ := Q
  have ht := h.task
  cases task with
  | eval e =>
      cases e with
      | var | assign | update | this =>
          cases hid
          exact ⟨_, _, ht _ (by rw [Expr.references]; exact List.mem_cons_self)⟩
      | lit | group | unary | binary | logical | ternary | array | index | call | get | set => cases hid
  | lookUp id name =>
      cases hid
      obtain ⟨access, -, hplaced⟩ := ht
      exact ⟨_, access, hplaced⟩
  | assign id name value =>
      cases hid
      obtain ⟨access, hplaced⟩ := ht
      exact ⟨_, access, hplaced⟩
  | evalAll | call | callWith | invoke | readThis | exec | execAll | loop | top => cases hid

/-- **The distance of a reference leads to a local scope.** -/
theorem Point.Fits.ancestor {id : NodeId} {distance : Nat} (h : Q.Fits L)
    (hid : Q.task.reference? = some id) (hd : Q.machine.table.distance? id = some distance) :
    ∃ owner, Q.machine.heap.ancestor? Q.machine.current distance = some owner ∧
      owner ≠ globalScope := by
  obtain ⟨Γ, h⟩ := h
  obtain ⟨name, access, hplaced⟩ := h.reference hid
  obtain ⟨scope, hscope, -⟩ := hplaced.placed distance (h.ready.table ▸ hd)
  obtain ⟨owner, howner, hlocal, -⟩ := h.covers.ancestor hscope
  exact ⟨owner, howner, hlocal⟩

/-- Under a strict layout a name that is read through a distance is there. -/
theorem Point.Fits.read {id : NodeId} {name : Ident} {distance : Nat} (h : Q.Fits L)
    (hstrict : L.strict = true) (htask : Q.task = .lookUp id name)
    (hd : Q.machine.table.distance? id = some distance) :
    ∃ value, Q.machine.heap.readAt Q.machine.current distance name.name = .ok value := by
  obtain ⟨steps, task, m⟩ := Q
  cases htask
  have hsafe : Safe L (fun _ => False) _ (Exec.lookUp id name) m := h.lookUp
  unfold Safe Exec.lookUp at hsafe
  simp only at hd ⊢
  rw [hd] at hsafe
  simp only [Exec.readAt] at hsafe
  cases hread : m.heap.readAt m.current distance name.name with
  | ok value => exact ⟨value, rfl⟩
  | error f =>
      rw [hread] at hsafe
      cases f with
      | missingScope => exact hsafe.2.elim
      | missingName name distance => exact absurd hsafe.2 (by simp [Layout.Allows, hstrict])

/-- The instance of an initializer is in the scope of its closure. -/
theorem Point.Fits.instance {closure : ScopeId} (h : Q.Fits L) (htask : Q.task = .readThis closure) :
    ∃ value, Q.machine.heap.readAt closure 0 thisName = .ok value := by
  obtain ⟨steps, task, m⟩ := Q
  cases htask
  obtain ⟨Γ, -, -, hthis⟩ := h
  obtain ⟨value, hvalue⟩ := Option.isSome_iff_exists.mp hthis
  exact ⟨value, by simp only [Heap.readAt, Heap.ancestor?, hvalue]⟩

end Access

namespace Session

variable {strict : Bool} {s : Session} {steps : Nat}

/-- A declaration of a name that the runs of sources come to at top level. -/
def Declares (steps : Nat) (s : Session) (sources : List String) (name : String) : Prop :=
  ∃ Q stmt, Visits steps s sources Q ∧ Q.task = .exec stmt ∧ Q.machine.current = globalScope ∧
    stmt.declared? = some name

/-- **New global names come from declarations at top level.** -/
theorem Fits.globals_after {sources : List String} {name : String} (h : s.Fits strict)
    (hsources : ∀ source ∈ sources, strict = true → Guarded source)
    (hname : (s.after steps sources).machine.bindsGlobal name = true) :
    s.machine.bindsGlobal name = true ∨ s.Declares steps sources name := by
  induction sources generalizing s with
  | nil => exact .inl hname
  | cons source rest ih =>
      have hsource := hsources source List.mem_cons_self
      -- The names after the first run are old ones or come from its own declarations.
      have hfirst : (s.run steps source).2.machine.bindsGlobal name = true →
          s.machine.bindsGlobal name = true ∨ s.Declares steps (source :: rest) name := by
        obtain ⟨m', hsession, hk, -⟩ := h.run_kept hsource steps
        rw [hsession]
        intro hname
        refine (hk.globals name hname).imp_right fun hadds => ?_
        obtain ⟨p, hfound, Q, stmt, hvisit, hrest⟩ := hadds
        exact ⟨Q, stmt, .here hfound hvisit, hrest⟩
      unfold after at hname
      split at hname
      · rename_i status hend
        rcases ih (h.run hsource) (fun x hx => hsources x (List.mem_cons_of_mem _ hx)) hname with
          hold | ⟨Q, stmt, hvisit, hrest⟩
        · exact hfirst hold
        · exact .inr ⟨Q, stmt, .later hend hvisit, hrest⟩
      · exact hfirst hname

/-- The clock is the only global name of a new session. -/
theorem eq_clock_of_initial {sink : Sink} {clock : Nat → Float} {name : String}
    (h : (Session.initial sink clock).machine.bindsGlobal name = true) : name = "clock" := by
  unfold Machine.bindsGlobal Session.initial Machine.initial at h
  rw [Heap.binds_define, Bool.or_eq_true] at h
  rcases h with h | h
  · rw [Bool.and_eq_true, decide_eq_true_eq, decide_eq_true_eq] at h
    exact h.2
  · cases h

/-- **Scopes at run time agree with those of the text.**  Whenever a reference with a distance is evaluated, read
or assigned, the distance leads to a local scope; so no run ends for want of a scope, and no expression makes a
global name.  Global names other than that of the clock come from declarations executed at top level. -/
theorem scopes_agree (sink : Sink) (clock : Nat → Float) (steps : Nat) (sources : List String) :
    (∀ Q id distance, (Session.initial sink clock).Visits steps sources Q →
      Q.task.reference? = some id → Q.machine.table.distance? id = some distance →
      ∃ owner, Q.machine.heap.ancestor? Q.machine.current distance = some owner ∧
        owner ≠ globalScope) ∧
    (∀ outcome ∈ (Session.initial sink clock).runAll steps sources,
      outcome.ending ≠ .fault .missingScope) ∧
    (∀ Q e name, (Session.initial sink clock).Visits steps sources Q → Q.task = .eval e →
      ((evaluate Q.steps e).leaves Q.machine).bindsGlobal name = true →
      Q.machine.bindsGlobal name = true) ∧
    (∀ name, ((Session.initial sink clock).after steps sources).machine.bindsGlobal name = true →
      name = "clock" ∨ (Session.initial sink clock).Declares steps sources name) := by
  have hfits := fits_initial false sink clock
  have hsources : ∀ source ∈ sources, false = true → Guarded source := fun _ _ h => nomatch h
  refine ⟨?_, ?_, ?_, ?_⟩
  · intro Q id distance hvisit hid hd
    obtain ⟨L, -, hQ⟩ := hfits.visits hvisit hsources
    exact hQ.ancestor hid hd
  · intro outcome hmem hfault
    obtain ⟨L, -, hallows⟩ := hfits.allows hsources hmem hfault
    exact hallows
  · intro Q e name hvisit htask hname
    obtain ⟨L, -, hQ⟩ := hfits.visits hvisit hsources
    obtain ⟨steps', task, m⟩ := Q
    cases htask
    have hk := ((stepsSafe L steps').eval (D := fun _ => False) hQ).leaves
    exact (hk.globals name hname).resolve_right id
  · intro name hname
    exact (hfits.globals_after hsources hname).imp_left eq_clock_of_initial

/-- A source with a global variable and a block that reads a local one. -/
def twoScopes : String := "var g; { var a; a; }"

/-- The program of `twoScopes`. -/
def twoScopesTree : Program :=
  [.var ⟨"g", 1⟩ none, .block [.var ⟨"a", 1⟩ none, .expr (.var 0 ⟨"a", 1⟩)]]

/-- The local name is read in a scope of its own; the global one comes from its declaration. -/
theorem scopes_agree_twoScopes :
    (∃ Q owner, (Session.initial .unlimited fun _ => 0).Visits 7 [twoScopes] Q ∧
      Q.task = .lookUp 0 ⟨"a", 1⟩ ∧ Q.machine.table.distance? 0 = some 0 ∧
      Q.machine.heap.ancestor? Q.machine.current 0 = some owner ∧ owner ≠ globalScope) ∧
    ((Session.initial .unlimited fun _ => 0).after 7 [twoScopes]).machine.bindsGlobal "g" = true ∧
    (Session.initial .unlimited fun _ => 0).Declares 7 [twoScopes] "g" := by
  have hagree := scopes_agree .unlimited (fun _ => 0) 7 [twoScopes]
  have hfound : (analyse (Session.initial .unlimited fun _ => 0).machine.table 0
      twoScopes).program = some twoScopesTree := by cbv
  have hdistance : (analyse (Session.initial .unlimited fun _ => 0).machine.table 0
      twoScopes).table.distance? 0 = some 0 := by cbv
  have hbound : ((Session.initial .unlimited fun _ => 0).after 7 [twoScopes]).machine.bindsGlobal
      "g" = true := by cbv
  have hvisit : (Session.initial .unlimited fun _ => 0).Visits 7 [twoScopes] _ :=
    .here hfound (.step (.topOthers rfl) (.step .topFirst (.step (.block rfl)
      (.step (.otherStmts rfl) (.step .firstStmt (.step .expr (.step .var (.refl _))))))))
  obtain ⟨owner, howner, hlocal⟩ := hagree.1 _ 0 0 hvisit rfl hdistance
  refine ⟨⟨_, owner, hvisit, rfl, hdistance, howner, hlocal⟩, hbound, ?_⟩
  exact (hagree.2.2.2 "g" hbound).resolve_left (by decide)

/-- **Reads of guarded sources find their names.**  No run of guarded sources one after another ends in a fault:
every name that is read through its distance is bound in the scope there, and so is the instance that an
initializer yields. -/
theorem reads_find_names (sink : Sink) (clock : Nat → Float) (steps : Nat) (sources : List String)
    (hsources : ∀ source ∈ sources, Guarded source) :
    (∀ outcome ∈ (Session.initial sink clock).runAll steps sources,
      ∀ f, outcome.ending ≠ .fault f) ∧
    (∀ Q id name distance, (Session.initial sink clock).Visits steps sources Q →
      Q.task = .lookUp id name → Q.machine.table.distance? id = some distance →
      ∃ value, Q.machine.heap.readAt Q.machine.current distance name.name = .ok value) ∧
    (∀ Q closure, (Session.initial sink clock).Visits steps sources Q →
      Q.task = .readThis closure →
      ∃ value, Q.machine.heap.readAt closure 0 thisName = .ok value) := by
  have hfits := fits_initial true sink clock
  have hguarded : ∀ source ∈ sources, true = true → Guarded source := fun x hx _ => hsources x hx
  refine ⟨?_, ?_, ?_⟩
  · intro outcome hmem f hfault
    obtain ⟨L, hstrict, hallows⟩ := hfits.allows hguarded hmem hfault
    cases f with
    | missingScope => exact hallows
    | missingName name distance => exact absurd hallows (by simp [Layout.Allows, hstrict])
  · intro Q id name distance hvisit htask hd
    obtain ⟨L, hstrict, hQ⟩ := hfits.visits hvisit hguarded
    exact hQ.read hstrict htask hd
  · intro Q closure hvisit htask
    obtain ⟨L, -, hQ⟩ := hfits.visits hvisit hguarded
    exact hQ.instance htask

/-- A class with an initializer, and a block that makes an instance and reads it. -/
def instanceSources : List String := ["class A { constructor() {} }", "{ var a = A(); a; }"]

theorem guarded_instanceSources : ∀ source ∈ instanceSources, Guarded source := by
  intro source hsource p hp
  rcases List.mem_cons.mp hsource with rfl | hsource
  · cbv at hp
    cases hp
    rfl
  · obtain rfl := List.mem_singleton.mp hsource
    cbv at hp
    cases hp
    rfl

/-- Both runs finish, and no run ends in a fault. -/
theorem reads_find_names_instance :
    (∀ source ∈ instanceSources, Guarded source) ∧
    ((Session.initial .unlimited fun _ => 0).runAll 12 instanceSources).map (·.ending) =
      [.finished ⟨false, false⟩, .finished ⟨false, false⟩] ∧
    ∀ outcome ∈ (Session.initial .unlimited fun _ => 0).runAll 12 instanceSources,
      ∀ f, outcome.ending ≠ .fault f :=
  ⟨guarded_instanceSources, by cbv,
    (reads_find_names .unlimited (fun _ => 0) 12 instanceSources guarded_instanceSources).1⟩

end Session

end Scriptlet
