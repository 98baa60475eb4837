import QueryProjection.Proofs.Json.Ascii
import QueryProjection.Proofs.Json.Quoting

/-!
# What is written is read back

A value is written over several lines, each indented by its level, and the reader drops the blanks
between tokens.  A value that `Returns` is recognised by the first character of its text and read
back, and what follows it is left over.  This is handed on from the items of a list to the list and
from the fields of an object to the object, as long as the fields have different names, since a
field that comes again is written over the first.  So it holds of every value that is admissible and
exact (`returns_of_exact`), and the text of such a value is read as the value (`read_write`).

What follows a value is a comma or a line break.  Neither goes on with a number, which is why a
number ends where it was written to end.
-/

namespace QueryProjection.Json

/-! ### Whole numbers -/

section Numbers

/-- What may follow a value within a list, within an object, or at the end of the text. -/
def Stops (tail : List Char) : Prop := ∀ c, tail.head? = some c → c = ',' ∨ c = '\n'

theorem Stops.not_digit {tail : List Char} (h : Stops tail) :
    ∀ c, tail.head? = some c → c.isDigit = false := by
  intro c hc
  rcases h c hc with rfl | rfl
  · decide
  · decide

theorem takeWhile_digits {digits tail : List Char} (hdigits : ∀ c ∈ digits, c.isDigit = true)
    (htail : Stops tail) : (digits ++ tail).takeWhile Char.isDigit = digits ∧
      (digits ++ tail).dropWhile Char.isDigit = tail := by
  rw [List.takeWhile_append_of_pos hdigits, List.dropWhile_append_of_pos hdigits]
  cases tail with
  | nil => exact ⟨List.append_nil _, rfl⟩
  | cons c tail =>
      have hc := htail.not_digit c rfl
      rw [List.takeWhile_cons_of_neg (by rw [hc]; exact Bool.false_ne_true),
        List.dropWhile_cons_of_neg (by rw [hc]; exact Bool.false_ne_true)]
      exact ⟨List.append_nil _, rfl⟩

theorem wholePart_toDigits (n : Nat) {tail : List Char} (htail : Stops tail) :
    wholePart (Nat.toDigits 10 n ++ tail) = (Nat.toDigits 10 n, tail) := by
  by_cases h : n = 0
  · rw [h, Nat.toDigits_zero]
    rfl
  · obtain ⟨htake, hdrop⟩ := takeWhile_digits (Decimal.isDigit_toDigits n) htail
    unfold wholePart
    split
    · rename_i rest hzero
      obtain ⟨c, digits, hcons⟩ := List.exists_cons_of_ne_nil (Nat.toDigits_ne_nil (n := n)
        (b := 10))
      have hfirst := Decimal.head?_toDigits n h
      rw [hcons] at hzero hfirst
      cases hzero
      exact absurd rfl hfirst
    · rw [htake, hdrop]

theorem fraction_of_stops {tail : List Char} (h : Stops tail) : fraction tail = ([], tail) := by
  unfold fraction
  split
  · rcases h '.' rfl with hdot | hdot
    · cases hdot
    · cases hdot
  · rfl

theorem exponent_of_stops {tail : List Char} (h : Stops tail) : exponent tail = ([], tail) := by
  cases tail with
  | nil => rfl
  | cons c tail =>
      have hc : (c = 'e' || c = 'E') = false := by
        rcases h c rfl with rfl | rfl
        · decide
        · decide
      rw [exponent, hc, if_neg Bool.false_ne_true]

/-- A digit is the first character of no word, not even behind a minus sign. -/
theorem readAtom_numeral {sign digits : List Char} (hsign : sign = [] ∨ sign = ['-']) {c : Char}
    (hc : c.isDigit = true) :
    readAtom (sign ++ c :: digits) = readNumber (sign ++ c :: digits) := by
  have hne (d : Char) (hd : d.isDigit = false) : d ≠ c := by
    rintro rfl
    rw [hc] at hd
    cases hd
  have hnone : (words.findSome? fun entry => (afterWord? entry.1 (sign ++ c :: digits)).map
      fun rest => (entry.2, rest)) = none := by
    rcases hsign with rfl | rfl
    · simp [words, afterWord?, hne 'n' rfl, hne 't' rfl, hne 'f' rfl, hne 'N' rfl, hne 'I' rfl,
        hne '-' rfl]
    · simp [words, afterWord?, hne 'I' rfl]
  rw [readAtom, hnone]

theorem readNumber_numeral {sign digits tail : List Char} (hsign : sign = [] ∨ sign = ['-'])
    (hwhole : wholePart (digits ++ tail) = (digits, tail))
    (hdigits : ∀ c ∈ digits, c.isDigit = true) (hsome : digits ≠ [])
    (hlength : digits.length ≤ digitLimit) (htail : Stops tail) :
    readNumber (sign ++ (digits ++ tail)) =
      .ok (.int (Decimal.intOfDigits (sign ++ digits)), tail) := by
  unfold readNumber
  split
  rename_i sign' unsigned hsigned
  obtain ⟨rfl, rfl⟩ : sign' = sign ∧ unsigned = digits ++ tail := by
    rcases hsign with rfl | rfl
    · split at hsigned
      · rename_i rest hminus
        obtain ⟨c, digits, rfl⟩ := List.exists_cons_of_ne_nil hsome
        cases hminus
        cases hdigits '-' List.mem_cons_self
      · cases hsigned
        exact ⟨rfl, rfl⟩
    · cases hsigned
      exact ⟨rfl, rfl⟩
  rw [hwhole]
  dsimp only
  rw [if_neg (by rwa [List.isEmpty_iff]), fraction_of_stops htail]
  dsimp only
  rw [exponent_of_stops htail]
  dsimp only
  rw [if_pos (by decide), if_neg (Nat.not_lt.mpr hlength)]

theorem readAtom_toString {value : Int} (hvalue : value.natAbs < 10 ^ digitLimit)
    {tail : List Char} (htail : Stops tail) :
    readAtom ((toString value).toList ++ tail) = .ok (.int value, tail) := by
  have hsign := Decimal.signOf_cases value
  have hdigits := Decimal.isDigit_toDigits value.natAbs
  have hsome : Nat.toDigits 10 value.natAbs ≠ [] := Nat.toDigits_ne_nil
  have hlength := (Nat.length_toDigits_le_iff (by decide) (by decide)).mpr hvalue
  have hread := readNumber_numeral hsign (wholePart_toDigits value.natAbs htail) hdigits hsome
    hlength htail
  rw [Decimal.intOfDigits_signOf] at hread
  obtain ⟨c, rest, hcons⟩ := List.exists_cons_of_ne_nil hsome
  rw [Decimal.toList_toString, List.append_assoc, ← hread, hcons]
  rw [hcons] at hdigits
  exact readAtom_numeral hsign (hdigits c List.mem_cons_self)

end Numbers

/-! ### Values -/

section Values

/-- The text starts with a character that is neither a blank nor the end of a list. -/
def Starts (cs : List Char) : Prop := ∃ c rest, cs = c :: rest ∧ isBlank c = false ∧ c ≠ ']'

theorem Starts.append {cs : List Char} (h : Starts cs) (more : List Char) : Starts (cs ++ more) := by
  obtain ⟨c, rest, rfl, hblank, hclose⟩ := h
  exact ⟨c, rest ++ more, rfl, hblank, hclose⟩

theorem Starts.skipBlank {cs : List Char} (h : Starts cs) : skipBlank cs = cs := by
  obtain ⟨c, rest, rfl, hblank, -⟩ := h
  rw [Json.skipBlank, List.dropWhile_cons_of_neg (by rw [hblank]; exact Bool.false_ne_true)]

theorem skipBlank_newline (level : Nat) (cs : List Char) :
    skipBlank (newline level ++ cs) = skipBlank cs := by
  unfold skipBlank newline
  rw [List.cons_append, List.dropWhile_cons_of_pos rfl, List.dropWhile_append_of_pos]
  intro c hc
  rw [List.eq_of_mem_replicate hc]
  rfl

theorem Stops.newline (level : Nat) (cs : List Char) : Stops (newline level ++ cs) := by
  intro c hc
  cases hc
  exact Or.inr rfl

/-- A value whose text is recognised, and read back with what follows it left over. -/
structure Returns (datum : Datum) : Prop where
  starts : ∀ level, Starts (writeValue level datum)
  read : ∀ {level fuel : Nat} {tail : List Char}, 2 * (writeValue level datum).length ≤ fuel →
    Stops tail → readValue fuel (writeValue level datum ++ tail) = .ok (datum, tail)

theorem Returns.atom {datum : Datum} {cs : List Char} (hwrite : ∀ level, writeValue level datum = cs)
    (hstarts : Starts cs) (hplain : ∀ c ∈ cs.head?, c ≠ '"' ∧ c ≠ '{' ∧ c ≠ '[')
    (hread : ∀ tail, Stops tail → readAtom (cs ++ tail) = .ok (datum, tail)) : Returns datum where
  starts level := by
    rw [hwrite]
    exact hstarts
  read {level fuel tail} hfuel htail := by
    rw [hwrite] at hfuel ⊢
    obtain ⟨c, rest, rfl, -, -⟩ := hstarts
    obtain ⟨left, rfl⟩ : ∃ left, fuel = left + 1 := ⟨fuel - 1, by
      rw [List.length_cons] at hfuel
      omega⟩
    obtain ⟨hquote, hbrace, hbracket⟩ := hplain c rfl
    rw [List.cons_append, readValue, if_neg hquote, if_neg hbrace, if_neg hbracket]
    exact hread tail htail

theorem returns_null : Returns .null := by
  have hread (tail : List Char) : readAtom ("null".toList ++ tail) = .ok (.null, tail) := by
    simp [readAtom, words, afterWord?]
  exact .atom (fun _ => rfl) ⟨'n', "ull".toList, rfl, rfl, by decide⟩ (by rintro c ⟨⟩; decide)
    fun tail _ => hread tail

theorem returns_bool (value : Bool) : Returns (.bool value) := by
  cases value with
  | true =>
      have hread (tail : List Char) :
          readAtom ("true".toList ++ tail) = .ok (.bool true, tail) := by
        simp [readAtom, words, afterWord?]
      exact .atom (fun _ => rfl) ⟨'t', "rue".toList, rfl, rfl, by decide⟩ (by rintro c ⟨⟩; decide)
        fun tail _ => hread tail
  | false =>
      have hread (tail : List Char) :
          readAtom ("false".toList ++ tail) = .ok (.bool false, tail) := by
        simp [readAtom, words, afterWord?]
      exact .atom (fun _ => rfl) ⟨'f', "alse".toList, rfl, rfl, by decide⟩ (by rintro c ⟨⟩; decide)
        fun tail _ => hread tail

theorem returns_int {value : Int} (hvalue : value.natAbs < 10 ^ digitLimit) :
    Returns (.int value) := by
  have hfirst : ∃ c rest, (toString value).toList = c :: rest ∧ (c.isDigit = true ∨ c = '-') := by
    have hdigits := Decimal.isDigit_toDigits value.natAbs
    obtain ⟨c, rest, hcons⟩ := List.exists_cons_of_ne_nil
      (Nat.toDigits_ne_nil : Nat.toDigits 10 value.natAbs ≠ [])
    rw [hcons] at hdigits
    rw [Decimal.toList_toString, hcons]
    rcases Decimal.signOf_cases value with hsign | hsign
    · rw [hsign]
      exact ⟨c, rest, rfl, Or.inl (hdigits c List.mem_cons_self)⟩
    · rw [hsign]
      exact ⟨'-', c :: rest, rfl, Or.inr rfl⟩
  obtain ⟨c, rest, hcons, hc⟩ := hfirst
  have hne (d : Char) (hdigit : d.isDigit = false) (hminus : d ≠ '-') : c ≠ d := by
    rintro rfl
    rcases hc with hc | hc
    · rw [hdigit] at hc
      cases hc
    · exact hminus hc
  have hblank : isBlank c = false := by
    simp only [isBlank, hne ' ' rfl (by decide), hne '\t' rfl (by decide), hne '\n' rfl (by decide),
      hne '\r' rfl (by decide), decide_false, Bool.or_self]
  have hwrite (level : Nat) : writeValue level (.int value) = (toString value).toList := rfl
  refine .atom hwrite ⟨c, rest, hcons, hblank, hne ']' rfl (by decide)⟩ ?_
    fun tail htail => readAtom_toString hvalue htail
  rw [hcons]
  rintro _ ⟨⟩
  exact ⟨hne '"' rfl (by decide), hne '{' rfl (by decide), hne '[' rfl (by decide)⟩

theorem readText_quote {opening : Nat} (value : String) (tail : List Char) :
    readText opening (value.toList.flatMap escapeChar ++ ['"'] ++ tail) =
      .ok (value.toList, tail) := by
  rw [List.append_assoc]
  exact readText_quoted value.toList tail

theorem returns_text (value : String) : Returns (.text value) where
  starts level := ⟨'"', _, rfl, rfl, by decide⟩
  read {level fuel tail} hfuel _ := by
    have hwrite : writeValue level (.text value) = quote value := rfl
    rw [hwrite, quote, List.cons_append] at hfuel ⊢
    obtain ⟨left, rfl⟩ : ∃ left, fuel = left + 1 := ⟨fuel - 1, by
      rw [List.length_cons] at hfuel
      omega⟩
    rw [List.cons_append, readValue, if_pos rfl, readText_quote, ok_bind]
    dsimp only
    rw [String.ofList_toList]
    rfl

/-! ### Lists -/

theorem stops_writeItems (level : Nat) (items : List Datum) (close : Nat) (tail : List Char) :
    Stops (writeItems level items ++ (newline close ++ tail)) := by
  cases items with
  | nil => exact .newline close tail
  | cons item items =>
      intro c hc
      cases hc
      exact Or.inl rfl

theorem readItems_writeItems {level close : Nat} {tail : List Char} {items : List Datum} :
    ∀ {item : Datum} {fuel : Nat}, (∀ other ∈ item :: items, Returns other) →
      2 * ((writeValue level item).length + (writeItems level items).length) + 1 ≤ fuel →
      readItems fuel (writeValue level item ++
        (writeItems level items ++ (newline close ++ ']' :: tail))) =
          .ok (item :: items, tail) := by
  induction items with
  | nil =>
      intro item fuel hitems hfuel
      obtain ⟨left, rfl⟩ : ∃ left, fuel = left + 1 := ⟨fuel - 1, by omega⟩
      have hitem := hitems item List.mem_cons_self
      rw [readItems, hitem.read (by omega) (stops_writeItems level [] close _), ok_bind]
      dsimp only
      have hclose : Json.skipBlank (']' :: tail) = ']' :: tail := rfl
      rw [writeItems, List.nil_append, skipBlank_newline, hclose]
      rfl
  | cons next items ih =>
      intro item fuel hitems hfuel
      rw [List.forall_mem_cons] at hitems
      obtain ⟨hitem, hitems⟩ := hitems
      have hnext := hitems next List.mem_cons_self
      simp only [writeItems, List.length_append, List.length_cons] at hfuel
      obtain ⟨left, rfl⟩ : ∃ left, fuel = left + 1 := ⟨fuel - 1, by omega⟩
      rw [readItems, hitem.read (by omega) (stops_writeItems level (next :: items) close _), ok_bind]
      dsimp only
      have hwrite : writeItems level (next :: items) ++ (newline close ++ ']' :: tail) =
          ',' :: (newline level ++ (writeValue level next ++
            (writeItems level items ++ (newline close ++ ']' :: tail)))) := by
        simp only [writeItems, List.append_assoc, List.cons_append]
      have hcomma (more : List Char) : Json.skipBlank (',' :: more) = ',' :: more := rfl
      rw [hwrite, hcomma]
      show (readItems left (Json.skipBlank (newline level ++ (writeValue level next ++
        (writeItems level items ++ (newline close ++ ']' :: tail))))) >>= fun read =>
          pure (item :: read.1, read.2)) = _
      rw [skipBlank_newline, ((hnext.starts level).append _).skipBlank, ih hitems (by omega),
        ok_bind]
      rfl

theorem returns_list {items : List Datum} (h : ∀ item ∈ items, Returns item) :
    Returns (.list items) where
  starts level := by
    cases items with
    | nil => exact ⟨'[', _, rfl, rfl, by decide⟩
    | cons item items => exact ⟨'[', _, rfl, rfl, by decide⟩
  read {level fuel tail} hfuel _ := by
    cases items with
    | nil =>
        obtain ⟨left, rfl⟩ : ∃ left, fuel = left + 1 := ⟨fuel - 1, by
          have htwo : (writeValue level (.list [])).length = 2 := rfl
          omega⟩
        rfl
    | cons item items =>
        have hwrite : writeValue level (.list (item :: items)) ++ tail =
            '[' :: (newline (level + 1) ++ (writeValue (level + 1) item ++
              (writeItems (level + 1) items ++ (newline level ++ ']' :: tail)))) := by
          simp only [writeValue, List.append_assoc, List.cons_append, List.nil_append]
        have hlength := congrArg List.length hwrite
        simp only [List.length_append, List.length_cons] at hlength
        obtain ⟨left, rfl⟩ : ∃ left, fuel = left + 1 := ⟨fuel - 1, by omega⟩
        have hitems : readItems left (writeValue (level + 1) item ++
            (writeItems (level + 1) items ++ (newline level ++ ']' :: tail))) =
              .ok (item :: items, tail) := readItems_writeItems h (by omega)
        have hstarts := (h item List.mem_cons_self).starts (level + 1)
        rw [hwrite, readValue, if_neg (by decide), if_neg (by decide), if_pos rfl,
          skipBlank_newline, (hstarts.append _).skipBlank]
        obtain ⟨c, rest, hcons, -, hclose⟩ := hstarts.append
          (writeItems (level + 1) items ++ (newline level ++ ']' :: tail))
        rw [hcons] at hitems ⊢
        split
        · rename_i last heq
          cases heq
          exact absurd rfl hclose
        · rw [hitems, ok_bind]
          rfl

/-! ### Objects -/

theorem stops_writeFields (level : Nat) (fields : List (String × Datum)) (close : Nat)
    (tail : List Char) : Stops (writeFields level fields ++ (newline close ++ tail)) := by
  cases fields with
  | nil => exact .newline close tail
  | cons field fields =>
      intro c hc
      cases hc
      exact Or.inl rfl

def writeField (level : Nat) (field : String × Datum) : List Char :=
  quote field.1 ++ ':' :: ' ' :: writeValue level field.2

theorem starts_writeField (level : Nat) (field : String × Datum) :
    Starts (writeField level field) :=
  ⟨'"', _, rfl, rfl, by decide⟩

theorem length_writeField (level : Nat) (field : String × Datum) :
    (writeValue level field.2).length < (writeField level field).length := by
  simp only [writeField, List.length_append, List.length_cons]
  omega

theorem not_mem_keys {before rest : OrderedMap String Datum} {field : String × Datum}
    (h : (OrderedMap.keys (before ++ field :: rest)).Nodup) :
    field.1 ∉ OrderedMap.keys before := by
  intro hmem
  rw [OrderedMap.keys, List.map_append, List.map_cons, List.nodup_append] at h
  exact h.2.2 _ hmem _ List.mem_cons_self rfl

/-- One field of an object: its value is written over the fields before it. -/
theorem readFields_writeField {level fuel : Nat} {before : OrderedMap String Datum}
    {field : String × Datum} {tail : List Char} (hvalue : Returns field.2)
    (hfuel : 2 * (writeValue level field.2).length ≤ fuel) (htail : Stops tail) :
    readFields (fuel + 1) before (writeField level field ++ tail) =
      match skipBlank tail with
      | '\x7d' :: last => .ok (OrderedMap.insert before field.1 field.2, last)
      | ',' :: more =>
          readFields fuel (OrderedMap.insert before field.1 field.2) (skipBlank more)
      | other => fail .expectingComma other := by
  obtain ⟨name, value⟩ := field
  have hwrite : writeField level (name, value) ++ tail = '"' :: (name.toList.flatMap escapeChar ++
      ['"'] ++ ':' :: ' ' :: (writeValue level value ++ tail)) := by
    simp only [writeField, quote, List.append_assoc, List.cons_append, List.nil_append]
  rw [hwrite, readFields, readText_quote, ok_bind]
  show (readValue fuel (Json.skipBlank (' ' :: (writeValue level value ++ tail))) >>= _) = _
  have hblank (more : List Char) : Json.skipBlank (' ' :: more) = Json.skipBlank more := rfl
  rw [hblank, ((hvalue.starts level).append tail).skipBlank, hvalue.read hfuel htail, ok_bind]
  dsimp only
  rw [String.ofList_toList]
  rfl

theorem readFields_writeFields {level close : Nat} {tail : List Char}
    {fields : List (String × Datum)} :
    ∀ {before : OrderedMap String Datum} {field : String × Datum} {fuel : Nat},
      (∀ other ∈ field :: fields, Returns other.2) →
      (OrderedMap.keys (before ++ field :: fields)).Nodup →
      2 * ((writeField level field).length + (writeFields level fields).length) + 1 ≤ fuel →
      readFields fuel before (writeField level field ++
        (writeFields level fields ++ (newline close ++ '\x7d' :: tail))) =
          .ok (before ++ field :: fields, tail) := by
  induction fields with
  | nil =>
      intro before field fuel hfields hnames hfuel
      have hvalue := hfields field List.mem_cons_self
      have hlength := length_writeField level field
      obtain ⟨left, rfl⟩ : ∃ left, fuel = left + 1 := ⟨fuel - 1, by omega⟩
      have hclose : Json.skipBlank ('\x7d' :: tail) = '\x7d' :: tail := rfl
      rw [readFields_writeField hvalue (by omega) (stops_writeFields level [] close _), writeFields,
        List.nil_append, skipBlank_newline, hclose]
      rw [OrderedMap.insert_of_not_mem (not_mem_keys hnames)]
      rfl
  | cons next fields ih =>
      intro before field fuel hfields hnames hfuel
      rw [List.forall_mem_cons] at hfields
      obtain ⟨hvalue, hfields⟩ := hfields
      have hlength := length_writeField level field
      have hwrite : writeFields level (next :: fields) ++ (newline close ++ '\x7d' :: tail) =
          ',' :: (newline level ++ (writeField level next ++
            (writeFields level fields ++ (newline close ++ '\x7d' :: tail)))) := by
        obtain ⟨name, value⟩ := next
        simp only [writeFields, writeField, List.append_assoc, List.cons_append, List.nil_append]
      have hsize := congrArg List.length hwrite
      simp only [List.length_append, List.length_cons] at hsize
      obtain ⟨left, rfl⟩ : ∃ left, fuel = left + 1 := ⟨fuel - 1, by omega⟩
      have hcomma (more : List Char) : Json.skipBlank (',' :: more) = ',' :: more := rfl
      rw [readFields_writeField hvalue (by omega) (stops_writeFields level (next :: fields) close _),
        hwrite, hcomma, OrderedMap.insert_of_not_mem (not_mem_keys hnames)]
      show readFields left (before ++ [field]) (Json.skipBlank (newline level ++
        (writeField level next ++ (writeFields level fields ++
          (newline close ++ '\x7d' :: tail))))) = _
      have happend : before ++ field :: next :: fields = before ++ [field] ++ next :: fields :=
        List.append_cons _ _ _
      rw [happend] at hnames ⊢
      rw [skipBlank_newline, ((starts_writeField level next).append _).skipBlank]
      exact ih hfields hnames (by omega)

theorem returns_object {fields : OrderedMap String Datum} (hnames : (OrderedMap.keys fields).Nodup)
    (h : ∀ field ∈ fields, Returns field.2) : Returns (.object fields) where
  starts level := by
    cases fields with
    | nil => exact ⟨'{', _, rfl, rfl, by decide⟩
    | cons field fields => exact ⟨'{', _, rfl, rfl, by decide⟩
  read {level fuel tail} hfuel _ := by
    cases fields with
    | nil =>
        obtain ⟨left, rfl⟩ : ∃ left, fuel = left + 1 := ⟨fuel - 1, by
          have htwo : (writeValue level (.object [])).length = 2 := rfl
          omega⟩
        rfl
    | cons field fields =>
        have hwrite : writeValue level (.object (field :: fields)) ++ tail =
            '{' :: (newline (level + 1) ++ (writeField (level + 1) field ++
              (writeFields (level + 1) fields ++ (newline level ++ '\x7d' :: tail)))) := by
          obtain ⟨name, value⟩ := field
          simp only [writeValue, writeField, List.append_assoc, List.cons_append, List.nil_append]
        have hlength := congrArg List.length hwrite
        simp only [List.length_append, List.length_cons] at hlength
        obtain ⟨left, rfl⟩ : ∃ left, fuel = left + 1 := ⟨fuel - 1, by omega⟩
        have hfields : readFields left [] (writeField (level + 1) field ++
            (writeFields (level + 1) fields ++ (newline level ++ '\x7d' :: tail))) =
              .ok (field :: fields, tail) := readFields_writeFields h hnames (by omega)
        rw [hwrite, readValue, if_neg (by decide), if_pos rfl, skipBlank_newline,
          ((starts_writeField (level + 1) field).append _).skipBlank]
        show (readFields left [] (writeField (level + 1) field ++
          (writeFields (level + 1) fields ++ (newline level ++ '\x7d' :: tail))) >>= fun read =>
            pure (Datum.object read.1, read.2)) = _
        rw [hfields]
        rfl

/-- What is admissible and exact is recognised in its text. -/
theorem returns_of_exact {datum : Datum} (hadmissible : datum.Admissible) (hexact : datum.Exact) :
    Returns datum := by
  induction hadmissible with
  | @intro datum hself _ ih =>
      have hparts : ∀ part ∈ datum.parts, Returns part := by
        cases hexact with
        | intro _ hparts => exact fun part hpart => ih part hpart (hparts part hpart)
      cases datum with
      | null => exact returns_null
      | bool value => exact returns_bool value
      | int value => exact returns_int hself
      | float value =>
          cases hexact with
          | intro hfloat _ => exact absurd rfl (hfloat value)
      | text value => exact returns_text value
      | list items => exact returns_list hparts
      | object fields => exact returns_object hself (List.forall_mem_map.mp hparts)

end Values

/-! ### Whole texts -/

/-- JSON text of a value, if it is admissible and exact, is read as that value. -/
theorem read_write {datum : Datum} (hadmissible : datum.Admissible) (hexact : datum.Exact) :
    read (write datum) = .ok datum := by
  have hreturns := returns_of_exact hadmissible hexact
  have hstarts := (hreturns.starts 0).append ['\n']
  have hread : readValue (2 * (write datum).length + 2) (write datum) = .ok (datum, ['\n']) :=
    hreturns.read (by rw [write, List.length_append]; omega) (by rintro c ⟨⟩; exact Or.inr rfl)
  have hascii := (isAscii_writeValue hexact 0).append (.cons (by decide) nofun : IsAscii ['\n'])
  unfold read
  split
  · rename_i rest hmark
    rw [write] at hmark
    rw [hmark] at hascii
    exact absurd (hascii '\uFEFF' List.mem_cons_self) (by decide)
  · rw [write] at hread ⊢
    rw [hstarts.skipBlank, hread, ok_bind]
    rfl

theorem getLast?_writeObject (level : Nat) (fields : OrderedMap String Datum) :
    (writeValue level (.object fields)).getLast? = some '\x7d' := by
  cases fields with
  | nil => rfl
  | cons field fields =>
      obtain ⟨name, value⟩ := field
      rw [writeValue, List.getLast?_append]
      rfl

end QueryProjection.Json
