import Scriptlet.Proofs.Scoping.Steps
import Scriptlet.Proofs.Session.Layouts

/-!
# Identity of nodes over a session

Every run numbers its nodes from where the run before it stopped, also when that run failed.  So a node id stands for
one node of the whole session, and an entry of the table of scope distances is written once.

* `Turn` — a source and the session it is run in; `Session.turns` — those of sources run one after another.
* `Turn.Owns t id` — the run drew `id` from the counter.
* `Turn.steps`, `Turn.tableAfter` — the steps of the run's resolver, and the table after some of them.
* `Turn.Identifies` — what one run does about its nodes and their entries.

Principal result: `Session.nodes_identified` — every run identifies its nodes, no two runs own the same id, and the
entries of a run stay through all later ones.
-/

set_option autoImplicit false

namespace Scriptlet

/-- All entries of a table are in another one. -/
def DistanceTable.Within (T T' : DistanceTable) : Prop :=
  ∀ id distance, T.distance? id = some distance → T'.distance? id = some distance

theorem DistanceTable.Within.trans {T T₁ T₂ : DistanceTable} (h : T.Within T₁) (h' : T₁.Within T₂) :
    T.Within T₂ :=
  fun id distance hd => h' id distance (h id distance hd)

/-- A source and the session it is run in. -/
structure Turn where
  session : Session
  source : String

/-- The turns of sources run one after another, however the runs end. -/
def Session.turns (steps : Nat) (s : Session) : List String → List Turn
  | [] => []
  | source :: rest => ⟨s, source⟩ :: (s.run steps source).2.turns steps rest

namespace Turn

/-- What the parser makes of the source. -/
def parsed (t : Turn) : Parsed := parse t.session.nextId (tokens t.source)

/-- The run draws a node id from the counter. -/
def Owns (t : Turn) (id : NodeId) : Prop := t.session.nextId ≤ id ∧ id < t.parsed.nextId

/-- The steps of the resolver: none if the source has lexical errors or does not parse. -/
def steps (t : Turn) : List ResolveStep :=
  match t.parsed.program with
  | .error _ => []
  | .ok p => if (lexErrors t.source).isEmpty then p.steps else []

/-- The table of scope distances after some steps of the resolver. -/
def tableAfter (t : Turn) (steps : List ResolveStep) : DistanceTable :=
  ((⟨[], t.session.machine.table, []⟩ : Resolution).walk steps).table

/-- The session after the run. -/
def next (steps : Nat) (t : Turn) : Session := (t.session.run steps t.source).2

/-- What a run does about its nodes and their entries. -/
structure Identifies (steps : Nat) (t : Turn) : Prop where
  /-- The nodes of a parsed program have different ids. -/
  distinct : ∀ p, t.parsed.program = .ok p → (Reference.ids (Stmt.referencesAll p)).Nodup
  owned : ∀ p, t.parsed.program = .ok p → ∀ id ∈ Reference.ids (Stmt.referencesAll p), t.Owns id
  /-- The resolver alone changes the table. -/
  resolved : (t.next steps).machine.table = t.tableAfter t.steps
  /-- An entry is filed under an id of this run that has none. -/
  files : ∀ before id name after, t.steps = before ++ .refer id name :: after →
    t.Owns id ∧ (t.tableAfter before).distance? id = none
  /-- An entry the table has at any point stays to the end of the run. -/
  keeps : ∀ before after, t.steps = before ++ after → (t.tableAfter before).Within (t.tableAfter t.steps)
  /-- What the run changes about the table are entries of its own. -/
  adds : ∀ id, (t.next steps).machine.table.distance? id ≠ t.session.machine.table.distance? id →
    t.Owns id ∧ t.session.machine.table.distance? id = none

variable {t : Turn} {steps : Nat}

/-- The analysis of the source leaves the table its resolver made. -/
theorem analyse_table (t : Turn) :
    (analyse t.session.machine.table t.session.nextId t.source).table = t.tableAfter t.steps := by
  unfold analyse tableAfter Turn.steps parsed
  simp only [List.isEmpty_map]
  cases (parse t.session.nextId (tokens t.source)).program with
  | error _ => rfl
  | ok p =>
      simp only
      split
      · rw [resolve_eq_walk]
        simp only
        split <;> rfl
      · rfl

/-- The nodes to which the resolver refers are nodes of the source. -/
theorem referred_steps (t : Turn) : (ResolveStep.referred t.steps).Nodup ∧
    ∀ id ∈ ResolveStep.referred t.steps, t.Owns id := by
  unfold Turn.steps
  cases hp : t.parsed.program with
  | error _ => exact ⟨List.nodup_nil, nofun⟩
  | ok p =>
      have hspans : Spans t.session.nextId _ t.parsed.nextId := parse_spans hp
      simp only
      split
      · refine ⟨Program.nodup_referred hspans.nodup, fun id hid => ?_⟩
        exact hspans.bounds id (Program.mem_ids_of_referred hid)
      · exact ⟨List.nodup_nil, nofun⟩

theorem next_eq (h : t.session.Fits false) (steps : Nat) :
    (t.next steps).machine.table = t.tableAfter t.steps ∧ (t.next steps).nextId = t.parsed.nextId := by
  obtain ⟨m', hnext, hk, -⟩ := h.run_kept nofun steps
  unfold Turn.next
  rw [hnext]
  exact ⟨hk.ready.table.trans t.analyse_table, analyse_nextId⟩

/-- Taking more steps of the resolver loses no entry. -/
theorem tableAfter_within (h : t.session.Fits false) {before after : List ResolveStep}
    (hsplit : t.steps = before ++ after) : (t.tableAfter before).Within (t.tableAfter t.steps) := by
  obtain ⟨hnodup, howned⟩ := t.referred_steps
  intro id distance hd
  rw [hsplit, ResolveStep.referred_append] at hnodup howned
  -- An id that is still to be filed is new and was not filed before, so it has no entry.
  have hafter : id ∉ ResolveStep.referred after := by
    intro hmem
    have hbefore : id ∉ ResolveStep.referred before := fun hb =>
      (List.nodup_append.mp hnodup).2.2 id hb id hmem rfl
    have hnone := h.unused id (howned id (List.mem_append_right _ hmem)).1
    unfold tableAfter at hd
    rw [Resolution.walk_frame before _ hbefore, hnone] at hd
    cases hd
  unfold tableAfter at hd ⊢
  rw [hsplit, Resolution.walk_append, Resolution.walk_frame after _ hafter, hd]

/-- **A run in a session that fits identifies its nodes.** -/
theorem identifies (h : t.session.Fits false) (steps : Nat) : t.Identifies steps where
  distinct := fun _ hp => (parse_spans hp).nodup
  owned := fun _ hp => (parse_spans hp).bounds
  resolved := (next_eq h steps).1
  files := by
    intro before id name after hsplit
    obtain ⟨hnodup, howned⟩ := t.referred_steps
    have hmem : id ∈ ResolveStep.referred t.steps := by
      rw [hsplit, ResolveStep.referred_append]
      exact List.mem_append_right _ List.mem_cons_self
    have hfree : ∀ id ∈ ResolveStep.referred t.steps, t.session.machine.table.distance? id = none :=
      fun id hid => h.unused id (howned id hid).1
    exact ⟨howned id hmem, Resolution.walk_fresh hnodup hfree hsplit⟩
  keeps := fun _ _ hsplit => tableAfter_within h hsplit
  adds := by
    intro id hne
    rw [(next_eq h steps).1] at hne
    have hmem : id ∈ ResolveStep.referred t.steps :=
      Classical.byContradiction fun hid => hne (Resolution.walk_frame t.steps _ hid)
    have howns := t.referred_steps.2 id hmem
    exact ⟨howns, h.unused id howns.1⟩

end Turn

namespace Session

variable {s : Session} {steps : Nat}

/-- **What later turns find**: the counter has not gone back, and no entry is lost. -/
theorem Fits.turns_after (h : s.Fits false) (sources : List String) : ∀ t ∈ s.turns steps sources,
    s.nextId ≤ t.session.nextId ∧ s.machine.table.Within t.session.machine.table := by
  induction sources generalizing s with
  | nil => exact nofun
  | cons source rest ih =>
      intro t ht
      rcases List.mem_cons.mp ht with rfl | ht
      · exact ⟨Nat.le_refl _, fun _ _ hd => hd⟩
      · obtain ⟨hle, hwithin⟩ := ih (h.run nofun) t ht
        have hfirst : s.machine.table.Within (s.run steps source).2.machine.table := by
          have hnext := Turn.next_eq (t := ⟨s, source⟩) h steps
          exact hnext.1 ▸ Turn.tableAfter_within (t := ⟨s, source⟩) h (List.nil_append _).symm
        refine ⟨Nat.le_trans ?_ hle, hfirst.trans hwithin⟩
        have hnext := Turn.next_eq (t := ⟨s, source⟩) h steps
        exact hnext.2 ▸ le_parse_nextId s.nextId (tokens source)

theorem Fits.turns_identify (h : s.Fits false) (sources : List String) :
    ∀ t ∈ s.turns steps sources, t.Identifies steps := by
  induction sources generalizing s with
  | nil => exact nofun
  | cons source rest ih =>
      intro t ht
      rcases List.mem_cons.mp ht with rfl | ht
      · exact Turn.identifies h steps
      · exact ih (h.run nofun) t ht

theorem Fits.turns_apart (h : s.Fits false) (sources : List String) :
    (s.turns steps sources).Pairwise fun t u => (∀ id, t.Owns id → ¬ u.Owns id) ∧
      (t.next steps).machine.table.Within u.session.machine.table := by
  induction sources generalizing s with
  | nil => exact List.Pairwise.nil
  | cons source rest ih =>
      refine List.Pairwise.cons (fun u hu => ?_) (ih (h.run nofun))
      obtain ⟨hle, hwithin⟩ := (h.run nofun).turns_after rest u hu
      have hnext := Turn.next_eq (t := ⟨s, source⟩) h steps
      refine ⟨fun id ht hu => ?_, hwithin⟩
      have hlt : id < (Turn.mk s source).parsed.nextId := ht.2
      rw [← hnext.2] at hlt
      exact Nat.lt_irrefl _ (Nat.lt_of_lt_of_le hlt (Nat.le_trans hle hu.1))

/-- **Node ids identify nodes over a whole session.**  Whatever sources are run, in every program that parses the ids
of the nodes that refer to a name are pairwise different and drawn by its run; no two runs draw the same id; a run
files distances only under ids of its own, never under one that has an entry; and an entry stays as it is, both to the
end of the run that made it and through all later runs. -/
theorem nodes_identified (sink : Sink) (clock : Nat → Float) (steps : Nat) (sources : List String) :
    (∀ t ∈ (Session.initial sink clock).turns steps sources, t.Identifies steps) ∧
    ((Session.initial sink clock).turns steps sources).Pairwise fun t u =>
      (∀ id, t.Owns id → ¬ u.Owns id) ∧ (t.next steps).machine.table.Within u.session.machine.table :=
  have h := fits_initial false sink clock
  ⟨h.turns_identify sources, h.turns_apart sources⟩

end Session

end Scriptlet
