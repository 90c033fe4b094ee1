import Mathlib
import Scriptlet.Proofs.Alike.LocalRenaming
import Scriptlet.Proofs.Session.Invisible
import Scriptlet.Proofs.Session.Outcomes

/-!
# Names of local variables do not matter

Renaming a local variable or parameter, with the references that lead to it, to a name that the program does not use
changes neither the scope distances of the program nor what it does.

Principal result: `Session.local_names_immaterial`.
-/

set_option autoImplicit false

namespace Scriptlet

namespace Session

variable {s : Session} {source : String} {p : Program}

/-- A program without errors admits the renaming of a local variable to a name it does not use. -/
theorem admits_renaming (h : (analyse s.machine.table s.nextId source).program = some p) {R : LocalRenaming}
    (hnew : R.new ∉ p.names) : R.Admits p.steps := by
  obtain ⟨hparse, herrors, -⟩ := analyse_program h
  rw [resolve_eq_walk] at herrors
  refine ⟨⟨_, herrors⟩, fun step hstep hname => ?_, parse_named hparse⟩
  exact hnew (List.mem_filterMap.mpr ⟨step, hstep, hname⟩)

/-- **Names of local variables do not matter.**  Let `p'` be the program `p` of a source with a local variable `x`
renamed to `y`.  If `p` does not use the name `y`, then `p'` resolves without error to the same distances, and has
the same outcome as the source. -/
theorem local_names_immaterial (hs : s.Reachable)
    (hfound : (analyse s.machine.table s.nextId source).program = some p) {x y : String} {p' : Program}
    (hrenamed : LocalRenaming.InStmts ⟨(resolve s.machine.table p).table, x, y⟩ p p') (hy : y ∉ p.names)
    (hthis : y ≠ thisName) :
    (resolve s.machine.table p').errors = [] ∧
    (resolve s.machine.table p').table = (resolve s.machine.table p).table ∧
    ∀ steps status, (s.run steps source).1.ending = .finished status →
      s.runProgram steps p' = (s.run steps source).1 := by
  have hfits := hs.fits
  obtain ⟨hparse, herrors, -⟩ := analyse_program hfound
  have hspans := parse_spans hparse
  have hkeeping : NameMap.Keeping [] := nofun
  have halike := hrenamed.alike hthis hkeeping (admits_renaming hfound hy)
  obtain ⟨herrors', htable'⟩ := resolve_alike (LocalRenaming.separates _ hthis) halike
    (fun name hname (heq : name = y) => hy (heq ▸ hname)) herrors hspans.nodup
    (fun id hid => hfits.unused id (hspans.bounds id hid).1) rfl
  refine ⟨herrors', htable', fun steps status hend => ?_⟩
  have hmachine := hfits.alike (V := LocalRenaming.variation ⟨(resolve s.machine.table p).table, x, y⟩)
    (fun _ _ => rfl) fun _ => rfl
  have hends := interpret_alike steps 0 hmachine halike
  rw [run_eq_runProgram steps hfound] at hend ⊢
  unfold runProgram at hend ⊢
  rw [htable']
  rw [Nat.zero_add] at hends
  exact hends.outcome_eq (fun _ _ hl => hl) hend

/-- A variable of a block, read and assigned by a function, that hides a global one. -/
def shadow : String :=
  "var a = \"outer\"; \x7b var a = \"inner\"; function f(b) \x7b print a; a = b; \x7d f(\"new\"); print a; \x7d"

/-- The block of `shadow`, where its variable has the given name. -/
def shadowBlock (name : String) : List Stmt :=
  [.var ⟨name, 1⟩ (some (.lit (.string "inner"))),
    .function (.mk ⟨"f", 1⟩ [⟨"b", 1⟩]
      [.print (.var 0 ⟨name, 1⟩), .expr (.assign 3 ⟨name, 1⟩ (.var 2 ⟨"b", 1⟩))]),
    .expr (.call (.var 4 ⟨"f", 1⟩) 1 [.lit (.string "new")]),
    .print (.var 5 ⟨name, 1⟩)]

/-- The program of `shadow`, where the variable of its block has the given name. -/
def shadowTree (name : String) : Program :=
  [.var ⟨"a", 1⟩ (some (.lit (.string "outer"))), .block (shadowBlock name)]

/-- The variable of the block is renamed apart from the global one. -/
theorem local_names_immaterial_shadow :
    (analyse (Session.initial .unlimited fun _ => 0).machine.table 0 shadow).program = some (shadowTree "a") ∧
    LocalRenaming.InStmts
      ⟨(resolve (Session.initial .unlimited fun _ => 0).machine.table (shadowTree "a")).table, "a", "c"⟩
      (shadowTree "a") (shadowTree "c") ∧
    (resolve (Session.initial .unlimited fun _ => 0).machine.table (shadowTree "c")).errors = [] ∧
    (Session.initial .unlimited fun _ => 0).runProgram 20 (shadowTree "c") =
      ((Session.initial .unlimited fun _ => 0).run 20 shadow).1 ∧
    ((Session.initial .unlimited fun _ => 0).run 20 shadow).1.output = "inner\nnew\n".toUTF8 := by
  have hfound : (analyse (Session.initial .unlimited fun _ => 0).machine.table 0 shadow).program =
      some (shadowTree "a") := by cbv
  have hblock : LocalRenaming.stmts
      ⟨(resolve (Session.initial .unlimited fun _ => 0).machine.table (shadowTree "a")).table, "a", "c"⟩ 0
      (shadowBlock "a") = shadowBlock "c" := by cbv
  have hrenamed : LocalRenaming.InStmts
      ⟨(resolve (Session.initial .unlimited fun _ => 0).machine.table (shadowTree "a")).table, "a", "c"⟩
      (shadowTree "a") (shadowTree "c") := by
    unfold shadowTree
    rw [← hblock]
    exact .tail (.head (.block List.mem_cons_self))
  have hend : ((Session.initial .unlimited fun _ => 0).run 20 shadow).1.ending = .finished ⟨false, false⟩ := by
    cbv
  obtain ⟨herrors, -, hrun⟩ := local_names_immaterial (.initial _ _) hfound hrenamed (by decide) (by decide)
  exact ⟨hfound, hrenamed, herrors, hrun 20 _ hend, by cbv⟩

end Session

end Scriptlet
