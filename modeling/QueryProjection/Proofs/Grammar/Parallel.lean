import Mathlib.Data.List.Forall2
import QueryProjection.Document.Grammar

/-!
# Readers side by side

A reader is run twice, on lexemes that correspond one by one.  A `Likeness` says which lexemes
correspond: they are equal, unless both are invalid.  All readers of the grammar are `Blind` to that
difference.  They read the same value on both sides, or stop at the same place.  There they report
the same fault, or the faults of two invalid words that correspond; what remains corresponds again.

Two likenesses matter.  One takes an invalid word for the same as the one that is found in its place
when lines are joined.  The other takes a lexeme of some sort for the same as itself only, and so
tells what is read from lexemes of that sort.
-/

namespace QueryProjection

/-- Lexemes that are the same unless both are invalid. -/
inductive Lexeme.Alike : Lexeme → Lexeme → Prop where
  | same (lexeme : Lexeme) : Alike lexeme lexeme
  | invalid (fault fault' : LexicalFault) : Alike (.invalid fault) (.invalid fault')

/-- Is a word at fault, and not what it stands among? -/
def SyntaxFault.isLexical : SyntaxFault → Bool
  | .lexical _ => true
  | _ => false

namespace Grammar

/-- Which lexemes are taken for the same. -/
structure Likeness where
  same : Lexeme → Lexeme → Prop
  alike : ∀ {lexeme lexeme' : Lexeme}, same lexeme lexeme' → lexeme.Alike lexeme'

/-- Faults that are reported of lexemes which are taken for the same: what the grammar says is the
same, and what is wrong with a word is wrong with two words that are taken for the same. -/
inductive Likeness.Faults (likeness : Likeness) : SyntaxFault → SyntaxFault → Prop where
  | grammar {fault : SyntaxFault} (h : fault.isLexical = false) : Faults likeness fault fault
  | lexical {fault fault' : LexicalFault} (h : likeness.same (.invalid fault) (.invalid fault')) :
      Faults likeness (.lexical fault) (.lexical fault')

/-- Lexemes that are taken for the same, where the next one is not invalid. -/
structure Likeness.Matches (likeness : Likeness) (lexemes lexemes' : List Lexeme) : Prop where
  forall₂ : List.Forall₂ likeness.same lexemes lexemes'
  checked : ∀ fault, lexemes.head? ≠ some (.invalid fault)

namespace Likeness.Matches

variable {likeness : Likeness} {lexemes lexemes' : List Lexeme}
  (h : likeness.Matches lexemes lexemes')

include h

theorem head? : lexemes'.head? = lexemes.head? := by
  obtain ⟨hall, hchecked⟩ := h
  cases hall with
  | nil => rfl
  | cons hfirst _ =>
      cases likeness.alike hfirst with
      | same => rfl
      | invalid fault => exact absurd rfl (hchecked fault)

theorem length : lexemes'.length = lexemes.length := h.forall₂.length_eq.symm

theorem tail : List.Forall₂ likeness.same lexemes.tail lexemes'.tail := by
  cases h.forall₂ with
  | nil => exact .nil
  | cons _ hrest => exact hrest

end Likeness.Matches

variable {likeness : Likeness}

/-- Results of lexemes that are taken for the same: values that are related, or faults at the same
place. -/
inductive Likewise (likeness : Likeness) {α : Type} (values : α → α → Prop) :
    Except Fault α → Except Fault α → Prop where
  | ok {a a' : α} (h : values a a') : Likewise likeness values (.ok a) (.ok a')
  | error {fault fault' : SyntaxFault} (h : likeness.Faults fault fault') (remaining : Nat) :
      Likewise likeness values (.error { fault, remaining }) (.error { fault := fault', remaining })

theorem Likewise.imp {α : Type} {values values' : α → α → Prop} {first second : Except Fault α}
    (h : Likewise likeness values first second) (himp : ∀ a a', values a a' → values' a a') :
    Likewise likeness values' first second := by
  cases h with
  | ok ha => exact .ok (himp _ _ ha)
  | error hfault remaining => exact .error hfault remaining

theorem Likewise.step {α β : Type} {values : α → α → Prop} {values' : β → β → Prop}
    {first first' : Except Fault α} {second second' : α → Except Fault β}
    (h : Likewise likeness values first first')
    (hsecond : ∀ a a', values a a' → Likewise likeness values' (second a) (second' a')) :
    Likewise likeness values' (first >>= second) (first' >>= second') := by
  cases h with
  | ok ha => exact hsecond _ _ ha
  | error hfault remaining => exact .error hfault remaining

def Parallel (likeness : Likeness) {α : Type} (values : α → α → Prop) (first second : Reader α) :
    Prop :=
  ∀ lexemes lexemes', likeness.Matches lexemes lexemes' →
    Likewise likeness (fun read read' => values read.1 read'.1 ∧ likeness.Matches read.2 read'.2)
      (first lexemes) (second lexemes')

/-- A reader does not see whether lexemes are equal or only taken for the same. -/
def Blind (likeness : Likeness) {α : Type} (reader : Reader α) : Prop :=
  Parallel likeness Eq reader reader

section Parallel

variable {α β : Type} {values : α → α → Prop} {values' : β → β → Prop}

theorem Parallel.step {first first' : Reader α} {second second' : α → Reader β}
    (h : Parallel likeness values first first')
    (hsecond : ∀ a a', values a a' → Parallel likeness values' (second a) (second' a')) :
    Parallel likeness values' (first >>= second) (first' >>= second') := by
  intro lexemes lexemes' hmatch
  refine (h lexemes lexemes' hmatch).step ?_
  rintro ⟨a, rest⟩ ⟨a', rest'⟩ ⟨hvalue, hrest⟩
  exact hsecond a a' hvalue rest rest' hrest

theorem Parallel.done {a a' : α} (h : values a a') :
    Parallel likeness values (pure a : Reader α) (pure a') :=
  fun _ _ hmatch => .ok ⟨h, hmatch⟩

theorem Parallel.get : Parallel likeness likeness.Matches (get : Reader (List Lexeme)) get :=
  fun _ _ hmatch => .ok ⟨hmatch, hmatch⟩

theorem Parallel.failAt {fault : SyntaxFault} (hfault : fault.isLexical = false)
    {lexemes lexemes' : List Lexeme} (h : likeness.Matches lexemes lexemes') :
    Parallel likeness values (Grammar.failAt fault lexemes) (Grammar.failAt fault lexemes') := by
  intro here here' _
  show Likewise likeness _ (.error { fault, remaining := lexemes.length })
    (.error { fault, remaining := lexemes'.length })
  rw [h.length]
  exact .error (.grammar hfault) _

theorem likewise_checkNext {lexemes lexemes' : List Lexeme}
    (h : List.Forall₂ likeness.same lexemes lexemes') :
    Likewise likeness likeness.Matches (checkNext lexemes) (checkNext lexemes') := by
  cases h with
  | nil => exact .ok ⟨.nil, nofun⟩
  | @cons lexeme lexeme' rest rest' hfirst hrest =>
      cases likeness.alike hfirst with
      | invalid fault fault' =>
          simp only [checkNext, List.length_cons, hrest.length_eq]
          exact .error (.lexical hfirst) _
      | same =>
          cases lexeme with
          | invalid fault =>
              simp only [checkNext, List.length_cons, hrest.length_eq]
              exact .error (.lexical hfirst) _
          | mark | name | int | float | text =>
              exact .ok ⟨.cons hfirst hrest, nofun⟩

end Parallel

namespace Blind

variable {α β : Type}

theorem done (value : α) : Blind likeness (pure value : Reader α) := Parallel.done rfl

theorem step {first : Reader α} {second : α → Reader β} (h : Blind likeness first)
    (hsecond : ∀ a, Blind likeness (second a)) : Blind likeness (first >>= second) := by
  refine Parallel.step h ?_
  rintro a _ rfl
  exact hsecond a

theorem map {reader : Reader α} (h : Blind likeness reader) (f : α → β) : Blind likeness (f <$> reader) := by
  rw [map_eq_pure_bind]
  exact h.step fun a => .done (f a)

theorem get {second : List Lexeme → Reader β}
    (h : ∀ lexemes lexemes', likeness.Matches lexemes lexemes' →
      Parallel likeness Eq (second lexemes) (second lexemes')) : Blind likeness (get >>= second) :=
  Parallel.get.step h

/-- Lexemes that are alike are equally many. -/
theorem count {second : Nat → Reader β} (h : ∀ n, Blind likeness (second n)) :
    Blind likeness (MonadState.get >>= fun lexemes : List Lexeme => second lexemes.length) := by
  refine .get fun lexemes lexemes' hmatch => ?_
  rw [hmatch.length]
  exact h _

theorem next : Blind likeness Grammar.next := by
  refine .get fun lexemes lexemes' hmatch => ?_
  rw [hmatch.head?]
  exact .done rfl

theorem unexpected : Blind likeness (Grammar.unexpected : Reader α) := by
  refine .get fun lexemes lexemes' hmatch => ?_
  rw [hmatch.head?]
  exact .failAt rfl hmatch

theorem advance : Blind likeness Grammar.advance := by
  intro lexemes lexemes' hmatch
  refine (likewise_checkNext hmatch.tail).step fun rest rest' hrest => ?_
  exact .ok ⟨rfl, hrest⟩

theorem nextIs (m : Punctuator) : Blind likeness (Grammar.nextIs m) := next.step fun _ => .done _

theorem accept (m : Punctuator) : Blind likeness (Grammar.accept m) := by
  refine (nextIs m).step fun isNext => ?_
  split
  · exact advance.step fun _ => .done true
  · exact .done false

theorem require (m : Punctuator) : Blind likeness (Grammar.require m) := by
  refine (accept m).step fun accepted => ?_
  split
  · exact .done ()
  · refine .get fun lexemes lexemes' hmatch => ?_
    rw [hmatch.head?]
    exact .failAt rfl hmatch

theorem acceptWord (word : String) : Blind likeness (Grammar.acceptWord word) := by
  refine next.step fun found => ?_
  split
  · exact advance.step fun _ => .done true
  · exact .done false

theorem requireWord (word : String) : Blind likeness (Grammar.requireWord word) := by
  refine (acceptWord word).step fun accepted => ?_
  split
  · exact .done ()
  · refine .get fun lexemes lexemes' hmatch => ?_
    rw [hmatch.head?]
    exact .failAt rfl hmatch

theorem name : Blind likeness Grammar.name := by
  refine .get fun lexemes lexemes' hmatch => ?_
  rw [hmatch.head?]
  split
  · exact advance.step fun _ => .done _
  · exact .failAt rfl hmatch

end Blind

/-! ### Repetition -/

/-- A reader is blind, and what it reads is of some sort. -/
def Draws (likeness : Likeness) {α : Type} (reader : Reader α) (sort : α → Prop) : Prop :=
  Parallel likeness (fun a a' => a = a' ∧ sort a) reader reader

theorem Blind.draws {α : Type} {reader : Reader α} (h : Blind likeness reader) :
    Draws likeness reader fun _ => True :=
  fun lexemes lexemes' hmatch =>
    (h lexemes lexemes' hmatch).imp fun _ _ h => ⟨⟨h.1, trivial⟩, h.2⟩

namespace Draws

variable {α β : Type} {sort : α → Prop} {sort' : β → Prop}

theorem blind {reader : Reader α} (h : Draws likeness reader sort) : Blind likeness reader :=
  fun lexemes lexemes' hmatch =>
    (h lexemes lexemes' hmatch).imp fun _ _ h => ⟨h.1.1, h.2⟩

theorem done {value : α} (h : sort value) : Draws likeness (pure value : Reader α) sort :=
  Parallel.done ⟨rfl, h⟩

theorem step {first : Reader α} {second : α → Reader β} (h : Draws likeness first sort)
    (hsecond : ∀ a, sort a → Draws likeness (second a) sort') :
    Draws likeness (first >>= second) sort' := by
  refine Parallel.step h ?_
  rintro a _ ⟨rfl, ha⟩
  exact hsecond a ha

theorem mono {sort' : α → Prop} {reader : Reader α} (h : Draws likeness reader sort)
    (himp : ∀ a, sort a → sort' a) : Draws likeness reader sort' :=
  fun lexemes lexemes' hmatch =>
    (h lexemes lexemes' hmatch).imp fun _ _ h => ⟨⟨h.1.1, himp _ h.1.2⟩, h.2⟩

theorem unexpected : Draws likeness (Grammar.unexpected : Reader α) sort := by
  refine Parallel.get.step fun lexemes lexemes' hmatch => ?_
  rw [hmatch.head?]
  exact .failAt rfl hmatch

theorem count {second : Nat → Reader β} (h : ∀ n, Draws likeness (second n) sort') :
    Draws likeness (MonadState.get >>= fun lexemes : List Lexeme => second lexemes.length)
      sort' := by
  refine Parallel.get.step fun lexemes lexemes' hmatch => ?_
  rw [hmatch.length]
  exact h _

variable {item : Reader α} (h : Draws likeness item sort)

include h

theorem itemsWithin (close : Punctuator) (rounds : Nat) :
    Draws likeness (Grammar.itemsWithin close item rounds) fun items =>
      ∀ item ∈ items, sort item := by
  induction rounds with
  | zero => exact .unexpected
  | succ rounds ih =>
      refine (Blind.accept close).draws.step fun closed _ => ?_
      split
      · exact .done nofun
      · exact h.step fun first hfirst => ih.step fun others hothers =>
          .done (List.forall_mem_cons.mpr ⟨hfirst, hothers⟩)

theorem itemsUntil (close : Punctuator) :
    Draws likeness (Grammar.itemsUntil close item) fun items => ∀ item ∈ items, sort item :=
  .count fun _ => h.itemsWithin close _

theorem anyBetween (opening close : Punctuator) :
    Draws likeness (Grammar.anyBetween opening item close) fun items =>
      ∀ item ∈ items, sort item :=
  (Blind.require opening).draws.step fun _ _ => h.itemsUntil close

theorem someBetween (opening close : Punctuator) :
    Draws likeness (Grammar.someBetween opening item close) fun items =>
      ∀ item ∈ items, sort item :=
  (Blind.require opening).draws.step fun _ _ => h.step fun _ hfirst =>
    (h.itemsUntil close).step fun _ hothers => .done (List.forall_mem_cons.mpr ⟨hfirst, hothers⟩)

theorem optionalBetween (opening close : Punctuator) :
    Draws likeness (Grammar.optionalBetween opening item close) fun items =>
      ∀ item ∈ items, sort item := by
  refine (Blind.nextIs opening).draws.step fun opens _ => ?_
  split
  · exact h.someBetween opening close
  · exact .done nofun

end Draws

namespace Blind

variable {α : Type} {item : Reader α} (h : Blind likeness item)

include h

theorem anyBetween (opening close : Punctuator) :
    Blind likeness (Grammar.anyBetween opening item close) :=
  (h.draws.anyBetween opening close).blind

theorem someBetween (opening close : Punctuator) :
    Blind likeness (Grammar.someBetween opening item close) :=
  (h.draws.someBetween opening close).blind

theorem optionalBetween (opening close : Punctuator) :
    Blind likeness (Grammar.optionalBetween opening item close) :=
  (h.draws.optionalBetween opening close).blind

theorem separatedWithin (separator : Punctuator) (rounds : Nat) :
    Blind likeness (Grammar.separatedWithin separator item rounds) := by
  induction rounds with
  | zero => exact .unexpected
  | succ rounds ih =>
      refine h.step fun first => (accept separator).step fun more => ?_
      split
      · exact ih.step fun others => .done _
      · exact .done _

theorem separated (separator : Punctuator) : Blind likeness (Grammar.separated separator item) :=
  (accept separator).step fun _ => .count fun _ => h.separatedWithin separator _

theorem startingWithin (start : Punctuator) (rounds : Nat) :
    Blind likeness (Grammar.startingWithin start item rounds) := by
  induction rounds with
  | zero => exact .done []
  | succ rounds ih =>
      refine (nextIs start).step fun starts => ?_
      split
      · exact h.step fun first => ih.step fun others => .done _
      · exact .done []

theorem startingWith (start : Punctuator) : Blind likeness (Grammar.startingWith start item) :=
  .count fun _ => h.startingWithin start _

end Blind

end Grammar

end QueryProjection
