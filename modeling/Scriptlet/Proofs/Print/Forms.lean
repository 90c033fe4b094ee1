import Mathlib.Data.List.Basic
import Scriptlet.Tree.Print

/-!
# Forms

The printed form of a tree is made of words, quoted texts and two kinds of lists.

* `Form` — such a text as a tree, and `Form.text` its characters.
* `Form.Legible` — words are not empty and hold none of the characters that delimit forms, and quoted texts hold no
  quote.

Principal results: `Form.Legible.unique` — of a legible form and what follows it, neither can be exchanged without
changing the text; `texts_unique` — the same for forms on lines of their own.
-/

set_option autoImplicit false

namespace Scriptlet

/-- A printed text as a tree. -/
inductive Form where
  | word (text : String)
  | quoted (body : String)
  | list (items : List Form)
  | array (items : List Form)

namespace Form

mutual
/-- The characters of a form. -/
def text : Form → String
  | .word text => text
  | .quoted body => "\"" ++ body ++ "\""
  | .list items => parenthesised (texts items)
  | .array items => "[" ++ ", ".intercalate (texts items) ++ "]"
/-- The characters of several forms. -/
def texts : List Form → List String
  | [] => []
  | f :: rest => f.text :: texts rest
end

/-- The characters that end a form. -/
def stops : List Char := [')', ']', ',', ' ', '\n']

/-- The characters that begin a form other than a word. -/
def openers : List Char := ['(', '[', '"']

/-- A character of a word. -/
def isPlain (c : Char) : Bool := !(stops.contains c || openers.contains c)

/-- A form that can be told from what follows it. -/
inductive Legible : Form → Prop
  | word {text : String} : text ≠ "" → (∀ c ∈ text.toList, isPlain c = true) → Legible (.word text)
  | quoted {body : String} : '"' ∉ body.toList → Legible (.quoted body)
  | list {items : List Form} : (∀ f ∈ items, Legible f) → Legible (.list items)
  | array {items : List Form} : (∀ f ∈ items, Legible f) → Legible (.array items)

/-! ## Where a form ends -/

theorem isPlain_iff {c : Char} : isPlain c = true ↔ c ∉ stops ∧ c ∉ openers := by
  simp [isPlain]

/-- A text that does not go on with the form before it. -/
def Stops (rest : List Char) : Prop := ∀ c ∈ rest.head?, c ∈ stops

theorem stops_cons {c : Char} (h : c ∈ stops) (rest : List Char) : Stops (c :: rest) := by
  rintro _ ⟨⟩
  exact h

/-- Two texts that go up to the same kind of character. -/
theorem append_unique {P : Char → Prop} {a b r s : List Char} (ha : ∀ c ∈ a, ¬ P c) (hb : ∀ c ∈ b, ¬ P c)
    (hr : ∀ c ∈ r.head?, P c) (hs : ∀ c ∈ s.head?, P c) (h : a ++ r = b ++ s) : a = b ∧ r = s := by
  rcases List.append_eq_append_iff.mp h with ⟨more, rfl, rfl⟩ | ⟨more, rfl, rfl⟩
  · cases more with
    | nil => exact ⟨(List.append_nil a).symm, rfl⟩
    | cons c more => exact absurd (hr c rfl) (hb c (by simp))
  · cases more with
    | nil => exact ⟨List.append_nil b, rfl⟩
    | cons c more => exact absurd (hs c rfl) (ha c (by simp))

/-- A legible form does not begin with a character that ends forms. -/
theorem Legible.exists_cons {f : Form} (h : f.Legible) : ∃ c rest, f.text.toList = c :: rest ∧ c ∉ stops := by
  cases h with
  | @word text hne hplain =>
      cases hchars : text.toList with
      | nil => exact absurd (String.toList_eq_nil_iff.mp hchars) hne
      | cons c rest => exact ⟨c, rest, hchars, (isPlain_iff.mp (hplain c (by simp [hchars]))).1⟩
  | quoted => exact ⟨'"', _, by simp [text]; rfl, by decide⟩
  | list => exact ⟨'(', _, by simp [text, parenthesised]; rfl, by decide⟩
  | array => exact ⟨'[', _, by simp [text]; rfl, by decide⟩

/-! ## Joined forms -/

/-- What follows the first of several joined forms, the closing character included. -/
def tail (separator : List Char) (close : Char) (rest : List Char) : List Form → List Char
  | [] => close :: rest
  | f :: fs => separator ++ (f.text.toList ++ tail separator close rest fs)

/-- What follows the opening character of joined forms. -/
def joined (separator : List Char) (close : Char) (rest : List Char) : List Form → List Char
  | [] => close :: rest
  | f :: fs => f.text.toList ++ tail separator close rest fs

theorem joined_eq (separator : String) (close : Char) (rest : List Char) : ∀ fs : List Form,
    (separator.intercalate (texts fs)).toList ++ close :: rest = joined separator.toList close rest fs
  | [] => by simp [texts, joined]
  | [f] => by simp [texts, joined, tail]
  | f :: g :: fs => by
      have ih := joined_eq separator close rest (g :: fs)
      simp only [texts, joined, tail] at ih ⊢
      rw [← ih]
      simp

/-- A form that is told from every legible form, whatever follows the two. -/
def Unique (f : Form) : Prop :=
  ∀ {g : Form} {r s : List Char}, g.Legible → Stops r → Stops s → f.text.toList ++ r = g.text.toList ++ s →
    f = g ∧ r = s

section Joined

variable {c close : Char} {separator r s : List Char}

theorem stops_tail (hc : c ∈ stops) (hclose : close ∈ stops) (fs : List Form) :
    Stops (tail (c :: separator) close r fs) := by
  cases fs with
  | nil => exact stops_cons hclose _
  | cons f fs => exact stops_cons hc _

theorem tail_unique (hc : c ∈ stops) (hclose : close ∈ stops) (hne : c ≠ close) {fs gs : List Form}
    (hfs : ∀ f ∈ fs, f.Unique) (hgs : ∀ g ∈ gs, g.Legible)
    (h : tail (c :: separator) close r fs = tail (c :: separator) close s gs) : fs = gs ∧ r = s := by
  induction fs generalizing gs with
  | nil =>
      cases gs with
      | nil => exact ⟨rfl, (List.cons.inj h).2⟩
      | cons g gs => exact absurd (List.cons.inj h).1.symm hne
  | cons f fs ih =>
      cases gs with
      | nil => exact absurd (List.cons.inj h).1 hne
      | cons g gs =>
          obtain ⟨hf, hfs⟩ := List.forall_mem_cons.mp hfs
          obtain ⟨hg, hgs'⟩ := List.forall_mem_cons.mp hgs
          have hrest := List.append_cancel_left h
          obtain ⟨rfl, htail⟩ := hf hg (stops_tail hc hclose fs) (stops_tail hc hclose gs) hrest
          obtain ⟨rfl, rfl⟩ := ih hfs hgs' htail
          exact ⟨rfl, rfl⟩

theorem joined_unique (hc : c ∈ stops) (hclose : close ∈ stops) (hne : c ≠ close) {fs gs : List Form}
    (hfs : ∀ f ∈ fs, f.Legible ∧ f.Unique) (hgs : ∀ g ∈ gs, g.Legible)
    (h : joined (c :: separator) close r fs = joined (c :: separator) close s gs) : fs = gs ∧ r = s := by
  -- A closing character begins no form, so either both lists are empty or neither is.
  have hclosed {k : Form} (hk : k.Legible) {a b : List Char} : k.text.toList ++ a ≠ close :: b := by
    obtain ⟨d, rest, hchars, hd⟩ := hk.exists_cons
    rw [hchars]
    rintro heq
    exact hd ((List.cons.inj heq).1 ▸ hclose)
  cases fs with
  | nil =>
      cases gs with
      | nil => exact ⟨rfl, (List.cons.inj h).2⟩
      | cons g gs => exact absurd h.symm (hclosed (hgs g List.mem_cons_self))
  | cons f fs =>
      obtain ⟨hf, hfs⟩ := List.forall_mem_cons.mp hfs
      cases gs with
      | nil => exact absurd h (hclosed hf.1)
      | cons g gs =>
          obtain ⟨hg, hgs'⟩ := List.forall_mem_cons.mp hgs
          obtain ⟨rfl, htail⟩ := hf.2 hg (stops_tail hc hclose fs) (stops_tail hc hclose gs) h
          obtain ⟨rfl, rfl⟩ := tail_unique hc hclose hne (fun f hf => (hfs f hf).2) hgs' htail
          exact ⟨rfl, rfl⟩

end Joined

/-! ## Unique reading -/

/-- The characters of a form and of what follows it, by the first of them. -/
def Shape (r : List Char) : Form → List Char
  | .word text => text.toList ++ r
  | .quoted body => '"' :: (body.toList ++ '"' :: r)
  | .list items => '(' :: joined [' '] ')' r items
  | .array items => '[' :: joined [',', ' '] ']' r items

theorem text_append (f : Form) (r : List Char) : f.text.toList ++ r = f.Shape r := by
  cases f with
  | word text => rfl
  | quoted body => simp [text, Shape]
  | list items =>
      have hitems := joined_eq " " ')' r items
      simp only [text, parenthesised, Shape, String.toList_append, List.append_assoc] at hitems ⊢
      exact congrArg ('(' :: ·) hitems
  | array items =>
      have hitems := joined_eq ", " ']' r items
      simp only [text, Shape, String.toList_append, List.append_assoc] at hitems ⊢
      exact congrArg ('[' :: ·) hitems

theorem word_ne_opener {text : String} {c : Char} {r s : List Char} (hne : text ≠ "")
    (hplain : ∀ d ∈ text.toList, isPlain d = true) (hc : c ∈ openers) : text.toList ++ r ≠ c :: s := by
  cases hchars : text.toList with
  | nil => exact absurd (String.toList_eq_nil_iff.mp hchars) hne
  | cons d rest =>
      intro heq
      rw [hchars] at hplain
      exact (isPlain_iff.mp (hplain d List.mem_cons_self)).2 ((List.cons.inj heq).1 ▸ hc)

/-- **A legible form is told from what follows it in one way only.** -/
theorem Legible.unique {f : Form} (h : f.Legible) : f.Unique := by
  induction h with
  | word hne hplain =>
      intro g r s hg hr hs heq
      rw [text_append, text_append] at heq
      cases hg with
      | word _ hplain' =>
          obtain ⟨htext, rfl⟩ := append_unique (fun c hc => (isPlain_iff.mp (hplain c hc)).1)
            (fun c hc => (isPlain_iff.mp (hplain' c hc)).1) hr hs heq
          rw [String.toList_inj.mp htext]
          exact ⟨rfl, rfl⟩
      | quoted | list | array => exact absurd heq (word_ne_opener hne hplain (by decide))
  | quoted hquote =>
      intro g r s hg hr hs heq
      rw [text_append, text_append] at heq
      cases hg with
      | word hne hplain => exact absurd heq.symm (word_ne_opener hne hplain (by decide))
      | quoted hquote' =>
          have hbodies := (List.cons.inj heq).2
          obtain ⟨hbody, hrest⟩ := append_unique (P := (· = '"')) (fun c hc hq => hquote (hq ▸ hc))
            (fun c hc hq => hquote' (hq ▸ hc)) (by simp) (by simp) hbodies
          rw [String.toList_inj.mp hbody, (List.cons.inj hrest).2]
          exact ⟨rfl, rfl⟩
      | list | array => cases heq
  | list hitems ih =>
      intro g r s hg hr hs heq
      rw [text_append, text_append] at heq
      cases hg with
      | word hne hplain => exact absurd heq.symm (word_ne_opener hne hplain (by decide))
      | list hitems' =>
          obtain ⟨rfl, rfl⟩ := joined_unique (by decide) (by decide) (by decide) (fun f hf => ⟨hitems f hf, ih f hf⟩)
            hitems' (List.cons.inj heq).2
          exact ⟨rfl, rfl⟩
      | quoted | array => cases heq
  | array hitems ih =>
      intro g r s hg hr hs heq
      rw [text_append, text_append] at heq
      cases hg with
      | word hne hplain => exact absurd heq.symm (word_ne_opener hne hplain (by decide))
      | array hitems' =>
          obtain ⟨rfl, rfl⟩ := joined_unique (by decide) (by decide) (by decide) (fun f hf => ⟨hitems f hf, ih f hf⟩)
            hitems' (List.cons.inj heq).2
          exact ⟨rfl, rfl⟩
      | quoted | list => cases heq

/-- **Legible forms on lines of their own are told apart by their text.** -/
theorem texts_unique {fs gs : List Form} (hfs : ∀ f ∈ fs, f.Legible) (hgs : ∀ g ∈ gs, g.Legible)
    (h : "\n".intercalate (texts fs) = "\n".intercalate (texts gs)) : fs = gs := by
  have hclosed : joined ['\n'] ')' [] fs = joined ['\n'] ')' [] gs := by
    have hf := joined_eq "\n" ')' [] fs
    have hg := joined_eq "\n" ')' [] gs
    rw [h] at hf
    exact hf.symm.trans hg
  exact (joined_unique (by decide) (by decide) (by decide) (fun f hf => ⟨hfs f hf, (hfs f hf).unique⟩) hgs hclosed).1

end Form

end Scriptlet
