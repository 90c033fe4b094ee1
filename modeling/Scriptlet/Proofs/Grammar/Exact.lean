import Scriptlet.Proofs.Grammar.ReadStmt

/-!
# The parser accepts exactly its grammar

The rule for `if` makes the grammar ambiguous, and the parser settles it: an `else` belongs to the nearest
`if`.  Nothing is lost by that (`DerivesStmt.nearest`): an open `if` takes an `else` that another reading
gives to an `if` around it (`DerivesStmt.takeElse`), so whatever the ambiguous grammar derives is also
derived with every `else` at its nearest `if`.

Principal result: `parse_exact` — a list of tokens is accepted exactly when the grammar derives it, and
the parser's tree is then the only one, up to node ids, that the grammar with the nearest `if` derives.
-/

set_option autoImplicit false

namespace Scriptlet.Grammar

/-- The statements with an open `if` at their end. -/
def TakesElse : (s : StmtSymbol) → List Token → Prop
  | .statement true, ts => ∀ {orElse : Token} {dangling : Bool} {ts' : List Token} {s' : Stmt},
      orElse.kind = .kwElse → DerivesStmt true (.statement dangling) ts' s' →
      ∃ dangling' s, DerivesStmt true (.statement dangling') (ts ++ orElse :: ts') s
  | _, _ => True

/-- An `else` after an open `if` belongs to it. -/
theorem DerivesStmt.takeElse {s : StmtSymbol} {ts : List Token} {t : s.Tree}
    (h : DerivesStmt true s ts t) : TakesElse s ts := by
  induction h with
  | @ifThen dangling _ _ _ _ ts _ _ hk hl hc hr h ih =>
      intro orElse dangling' ts' s' helse h'
      cases dangling with
      | false => exact ⟨dangling', _, by simpa using h.ifElse hk hl hc hr (fun _ => rfl) helse h'⟩
      | true =>
          obtain ⟨_, _, hbody⟩ := ih helse h'
          exact ⟨true, _, by simpa using hbody.ifThen hk hl hc hr⟩
  | @ifElse _ dangling' _ _ _ _ _ _ _ _ _ _ hk hl hc hr h hd helse _ _ ih' =>
      cases dangling' with
      | false => trivial
      | true =>
          intro orElse' dangling ts' s' helse' h'
          obtain ⟨dangling'', _, hbody⟩ := ih' helse' h'
          exact ⟨dangling'', _, by simpa using h.ifElse hk hl hc hr hd helse hbody⟩
  | @forLoop dangling _ _ _ _ _ _ _ _ _ _ _ _ hk hl hi hc hsemi he hr _ ih =>
      cases dangling with
      | false => trivial
      | true =>
          intro orElse dangling' ts' s' helse h'
          obtain ⟨dangling'', _, hbody⟩ := ih helse h'
          exact ⟨dangling'', _, by simpa using hbody.forLoop hk hl hi hc hsemi he hr⟩
  | @whileLoop dangling _ _ _ _ _ _ _ hk hl hc hr _ ih =>
      cases dangling with
      | false => trivial
      | true =>
          intro orElse dangling' ts' s' helse h'
          obtain ⟨dangling'', _, hbody⟩ := ih helse h'
          exact ⟨dangling'', _, by simpa using hbody.whileLoop hk hl hc hr⟩
  | «variable» | noDeclaration | declarations | classDecl | function | ret | print | block | expr
  | callable | noCallable | callables => trivial
  | statement => trivial

/-- The tokens have a reading with each `else` at its nearest `if`. -/
def HasNearest : (s : StmtSymbol) → List Token → Prop
  | .declaration _, ts => ∃ dangling s, DerivesStmt true (.declaration dangling) ts s
  | .statement _, ts => ∃ dangling s, DerivesStmt true (.statement dangling) ts s
  | s, ts => ∃ t : s.Tree, DerivesStmt true s ts t

/-- Whatever the ambiguous grammar derives has a reading with each `else` at its nearest `if`. -/
theorem DerivesStmt.nearest {s : StmtSymbol} {ts : List Token} {t : s.Tree}
    (h : DerivesStmt false s ts t) : HasNearest s ts := by
  induction h with
  | noDeclaration => exact ⟨_, .noDeclaration⟩
  | declarations _ _ ih ihs =>
      obtain ⟨_, _, h⟩ := ih
      obtain ⟨_, hs⟩ := ihs
      exact ⟨_, h.declarations hs⟩
  | «variable» hk h => exact ⟨_, _, .variable hk h⟩
  | statement _ ih =>
      obtain ⟨_, _, h⟩ := ih
      exact ⟨_, _, h.statement⟩
  | classDecl hk hname hl _ hr ih =>
      obtain ⟨_, h⟩ := ih
      exact ⟨_, _, h.classDecl hk hname hl hr⟩
  | function hk _ ih =>
      obtain ⟨_, h⟩ := ih
      exact ⟨_, _, h.function hk⟩
  | ret hk h hsemi => exact ⟨_, _, .ret hk h hsemi⟩
  | ifThen hk hl hc hr _ ih =>
      obtain ⟨_, _, h⟩ := ih
      exact ⟨_, _, h.ifThen hk hl hc hr⟩
  | ifElse hk hl hc hr _ _ helse _ ih ih' =>
      obtain ⟨dangling, _, h⟩ := ih
      obtain ⟨_, _, h'⟩ := ih'
      cases dangling with
      | false => exact ⟨_, _, h.ifElse hk hl hc hr (fun _ => rfl) helse h'⟩
      | true =>
          -- the branch ends in an open `if`, which takes the `else` and leaves this one without
          obtain ⟨_, _, hbody⟩ := h.takeElse helse h'
          exact ⟨true, _, by simpa using hbody.ifThen hk hl hc hr⟩
  | forLoop hk hl hi hc hsemi he hr _ ih =>
      obtain ⟨_, _, h⟩ := ih
      exact ⟨_, _, h.forLoop hk hl hi hc hsemi he hr⟩
  | whileLoop hk hl hc hr _ ih =>
      obtain ⟨_, _, h⟩ := ih
      exact ⟨_, _, h.whileLoop hk hl hc hr⟩
  | print hk h hsemi => exact ⟨_, _, .print hk h hsemi⟩
  | block hl _ hr ih =>
      obtain ⟨_, h⟩ := ih
      exact ⟨_, _, h.block hl hr⟩
  | expr h hsemi => exact ⟨_, _, .expr h hsemi⟩
  | callable hname hl hp hr hl' _ hr' ih =>
      obtain ⟨_, h⟩ := ih
      exact ⟨_, h.callable hname hl hp hr hl' hr'⟩
  | noCallable => exact ⟨_, .noCallable⟩
  | callables _ _ ih ihs =>
      obtain ⟨_, h⟩ := ih
      obtain ⟨_, hs⟩ := ihs
      exact ⟨_, h.callables hs⟩

/-- A reading with each `else` at its nearest `if` is a reading. -/
theorem DerivesStmt.weaken {s : StmtSymbol} {ts : List Token} {t : s.Tree}
    (h : DerivesStmt true s ts t) : DerivesStmt false s ts t := by
  induction h with
  | noDeclaration => exact .noDeclaration
  | declarations _ _ ih ihs => exact ih.declarations ihs
  | «variable» hk h => exact .variable hk h
  | statement _ ih => exact ih.statement
  | classDecl hk hname hl _ hr ih => exact ih.classDecl hk hname hl hr
  | function hk _ ih => exact ih.function hk
  | ret hk h hsemi => exact .ret hk h hsemi
  | ifThen hk hl hc hr _ ih => exact ih.ifThen hk hl hc hr
  | ifElse hk hl hc hr _ _ helse _ ih ih' => exact ih.ifElse hk hl hc hr (by simp) helse ih'
  | forLoop hk hl hi hc hsemi he hr _ ih => exact ih.forLoop hk hl hi hc hsemi he hr
  | whileLoop hk hl hc hr _ ih => exact ih.whileLoop hk hl hc hr
  | print hk h hsemi => exact .print hk h hsemi
  | block hl _ hr ih => exact ih.block hl hr
  | expr h hsemi => exact .expr h hsemi
  | callable hname hl hp hr hl' _ hr' ih => exact ih.callable hname hl hp hr hl' hr'
  | noCallable => exact .noCallable
  | callables _ _ ih ihs => exact ih.callables ihs

/-- **The parser accepts exactly the grammar, and its tree is the one with each `else` at the nearest
`if`.** -/
theorem parse_exact (firstId : NodeId) (ts : List Token) (eof : Token)
    (hts : ∀ t ∈ ts, t.kind ≠ .eof) (heof : eof.kind = .eof) :
    ((∃ p, (parse firstId (ts ++ [eof])).program = .ok p) ↔ ∃ q, Program false ts q) ∧
      ∀ p, (parse firstId (ts ++ [eof])).program = .ok p → Program true ts p ∧
        ∀ q, Program true ts q → q.eraseIds = p.eraseIds := by
  refine ⟨⟨?_, ?_⟩, fun p hp => ⟨program_sound hts heof hp, fun q hq => ?_⟩⟩
  · rintro ⟨p, hp⟩
    exact ⟨p, (program_sound hts heof hp).weaken⟩
  · rintro ⟨q, hq⟩
    obtain ⟨q', hq'⟩ := hq.nearest
    obtain ⟨p, hp, -⟩ := program_reads firstId heof hq'
    exact ⟨p, hp⟩
  · obtain ⟨p', hp', heq⟩ := program_reads firstId heof hq
    rw [hp] at hp'
    cases hp'
    exact heq.symm

/-- The tokens of `if (a) if (b) x; else y = true ? x : y = null;`, without the end token. -/
def openIf : List Token :=
  [⟨.kwIf, "if", 1⟩, ⟨.leftParen, "(", 1⟩, ⟨.identifier, "a", 1⟩, ⟨.rightParen, ")", 1⟩,
    ⟨.kwIf, "if", 1⟩, ⟨.leftParen, "(", 1⟩, ⟨.identifier, "b", 1⟩, ⟨.rightParen, ")", 1⟩,
    ⟨.identifier, "x", 1⟩, ⟨.semicolon, ";", 1⟩, ⟨.kwElse, "else", 1⟩, ⟨.identifier, "y", 1⟩,
    ⟨.equal, "=", 1⟩, ⟨.kwTrue, "true", 1⟩, ⟨.question, "?", 1⟩, ⟨.identifier, "x", 1⟩,
    ⟨.colon, ":", 1⟩, ⟨.identifier, "y", 1⟩, ⟨.equal, "=", 1⟩, ⟨.kwNull, "null", 1⟩,
    ⟨.semicolon, ";", 1⟩]

/-- The tree of `openIf`, with the ids the parser hands out. -/
def openIfTree : Scriptlet.Program :=
  [.ifElse (.var 7 ⟨"a", 1⟩)
    (.ifElse (.var 8 ⟨"b", 1⟩) (.expr (.var 9 ⟨"x", 1⟩))
      (some (.expr (.assign 14 ⟨"y", 1⟩
        (.ternary (.lit (.bool true)) (.var 11 ⟨"x", 1⟩)
          (.assign 13 ⟨"y", 1⟩ (.lit .null))))))) none]

theorem parse_exact_openIf :
    (∀ t ∈ openIf, t.kind ≠ .eof) ∧ (Token.endOfSource 1).kind = .eof ∧
      (∃ q, Program false openIf q) ∧ Program true openIf openIfTree ∧
      ∀ q, Program true openIf q → q.eraseIds = openIfTree.eraseIds := by
  have hts : ∀ t ∈ openIf, t.kind ≠ .eof := by decide
  have hparse : (parse 7 (openIf ++ [Token.endOfSource 1])).program = .ok openIfTree := rfl
  obtain ⟨haccept, htree⟩ := parse_exact 7 openIf (Token.endOfSource 1) hts rfl
  exact ⟨hts, rfl, haccept.1 ⟨_, hparse⟩, htree _ hparse⟩

end Scriptlet.Grammar
