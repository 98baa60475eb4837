import QueryProjection.Proofs.Command.Entries

/-!
# When the command helps

Arguments are gone through in order.  What has been gone through is settled, whatever follows
(`goThrough_append`).  So help is given where it is asked for before anything is refused, and words
that are unknown do not hinder it, since they are refused at the end only (`ending_eq_helped`).  An
option that is ambiguous is refused before all else.
-/

namespace QueryProjection.Command

namespace Settings

variable {settings settings' : Settings} {leftover leftover' : List String} {switch : Switch}

/-! ### Single arguments -/

theorem goThrough_explicit (htakes : switch.takesValue = true) (written value : String)
    (rest : List (String × Role)) :
    goThrough settings leftover ((written, .switch switch (some value)) :: rest) =
      goThrough (settings.give switch (.ofExplicit value)) leftover rest := by
  rw [goThrough, if_pos htakes]

theorem goThrough_given (htakes : switch.takesValue = true) (written value : String)
    (rest : List (String × Role)) :
    goThrough settings leftover ((written, .switch switch none) :: (value, .value) :: rest) =
      goThrough (settings.give switch (.text value)) leftover rest := by
  rw [goThrough, if_pos htakes]

theorem goThrough_flag (htakes : switch.takesValue = false) (written : String)
    (rest : List (String × Role)) :
    goThrough settings leftover ((written, .switch switch none) :: rest) =
      settings.turnOn switch >>= fun settings => goThrough settings leftover rest := by
  rw [goThrough.eq_def]
  simp only [htakes, Bool.false_eq_true, if_false]

/-! ### All arguments -/

theorem goThrough_append {before : List (String × Role)}
    (h : goThrough settings leftover before = .ok (settings', leftover'))
    (rest : List (String × Role)) :
    goThrough settings leftover (before ++ rest) = goThrough settings' leftover' rest := by
  induction settings, leftover, before using goThrough.induct with
  | case1 settings leftover =>
      cases h
      rfl
  | case2 settings leftover written switch value before htakes ih =>
      rw [goThrough_explicit htakes] at h
      rw [List.cons_append, goThrough_explicit htakes]
      exact ih h
  | case3 settings leftover written switch value before htakes =>
      rw [goThrough, if_neg htakes] at h
      cases h
  | case4 settings leftover written switch htakes value before ih =>
      rw [goThrough_given htakes] at h
      rw [List.cons_append, List.cons_append, goThrough_given htakes]
      exact ih h
  | case5 settings leftover written switch before htakes hvalue =>
      rw [goThrough, if_pos htakes] at h
      · cases h
      · exact hvalue
  | case6 settings leftover written switch before htakes ih =>
      have hflag : switch.takesValue = false := Bool.eq_false_iff.mpr htakes
      rw [goThrough_flag hflag] at h
      obtain ⟨turned, hturned, h⟩ := bind_eq_ok.mp h
      rw [List.cons_append, goThrough_flag hflag, hturned]
      exact ih turned h
  | case7 settings leftover written before ih | case8 settings leftover written before ih
  | case9 settings leftover written before ih => exact ih h

/-- To go through arguments ends with help just if all is well up to where it is asked for. -/
theorem goThrough_eq_helped {sorted : List (String × Role)} :
    goThrough settings leftover sorted = .error .helped ↔
      ∃ before written rest reached, sorted = before ++ (written, .switch .help none) :: rest ∧
        goThrough settings leftover before = .ok reached := by
  constructor
  · intro h
    induction settings, leftover, sorted using goThrough.induct with
    | case1 settings leftover => cases h
    | case2 settings leftover written switch value behind htakes ih =>
        rw [goThrough_explicit htakes] at h
        obtain ⟨before, asked, rest, reached, rfl, hreached⟩ := ih h
        refine ⟨_ :: before, asked, rest, reached, rfl, ?_⟩
        rw [goThrough_explicit htakes]
        exact hreached
    | case3 settings leftover written switch value behind htakes =>
        rw [goThrough, if_neg htakes] at h
        cases h
    | case4 settings leftover written switch htakes value behind ih =>
        rw [goThrough_given htakes] at h
        obtain ⟨before, asked, rest, reached, rfl, hreached⟩ := ih h
        refine ⟨_ :: _ :: before, asked, rest, reached, rfl, ?_⟩
        rw [goThrough_given htakes]
        exact hreached
    | case5 settings leftover written switch behind htakes hvalue =>
        rw [goThrough, if_pos htakes] at h
        · cases h
        · exact hvalue
    | case6 settings leftover written switch behind htakes ih =>
        have hflag : switch.takesValue = false := Bool.eq_false_iff.mpr htakes
        rw [goThrough_flag hflag] at h
        cases hturned : settings.turnOn switch with
        | error halt =>
            cases switch with
            | help => exact ⟨[], written, behind, (settings, leftover), rfl, rfl⟩
            | aggregate | bindings | operationName | exclude | strict => cases hturned
        | ok turned =>
            rw [hturned] at h
            obtain ⟨before, asked, rest, reached, rfl, hreached⟩ := ih turned h
            refine ⟨_ :: before, asked, rest, reached, rfl, ?_⟩
            rw [goThrough_flag hflag, hturned]
            exact hreached
    | case7 settings leftover written behind ih | case8 settings leftover written behind ih
    | case9 settings leftover written behind ih =>
        obtain ⟨before, asked, rest, reached, rfl, hreached⟩ := ih h
        exact ⟨_ :: before, asked, rest, reached, rfl, hreached⟩
  · rintro ⟨before, written, rest, ⟨settings', leftover'⟩, rfl, hreached⟩
    rw [goThrough_append hreached, goThrough_flag rfl]
    rfl

theorem ofArguments_eq_helped {arguments : List String} :
    ofArguments arguments = .error .helped ↔
      ∃ sorted, roles arguments = .ok sorted ∧ goThrough default [] sorted = .error .helped := by
  constructor
  · intro h
    rcases bind_eq_error.mp h with herror | ⟨sorted, hsorted, h⟩
    · cases hroles : roles arguments with
      | error found =>
          rw [hroles] at herror
          cases herror
      | ok sorted =>
          rw [hroles] at herror
          cases herror
    rcases bind_eq_error.mp h with herror | ⟨⟨settings, leftover⟩, -, h⟩
    · exact ⟨sorted, mapError_eq_ok.mp hsorted, herror⟩
    · dsimp only at h
      split at h
      · cases h
      · cases h
  · rintro ⟨sorted, hroles, hthrough⟩
    refine bind_eq_error.mpr (Or.inr ⟨sorted, mapError_eq_ok.mpr hroles, ?_⟩)
    exact bind_eq_error.mpr (Or.inl hthrough)

end Settings

/-- A run helps just if its arguments can be told apart, and all is well up to where help is asked
for.  Its input does not matter. -/
theorem ending_eq_helped {arguments : List String} {input : String} :
    (run arguments input).ending = .helped ↔
      ∃ before written rest reached,
        roles arguments = .ok (before ++ (written, .switch .help none) :: rest) ∧
        Settings.goThrough .default [] before = .ok reached := by
  have hasked : (run arguments input).ending = .helped ↔
      Settings.ofArguments arguments = .error .helped := by
    rw [ending_eq_of_prepare rfl (by rintro _ ⟨⟩), prepare, prepareText_eq_error rfl]
    constructor
    · rintro (⟨hhalt, -⟩ | ⟨_, _, _, -, -, -, hending⟩)
      · exact hhalt
      · cases hending
    · exact fun hhalt => Or.inl ⟨hhalt, rfl⟩
  rw [hasked, Settings.ofArguments_eq_helped]
  constructor
  · rintro ⟨sorted, hroles, hthrough⟩
    obtain ⟨before, written, rest, reached, rfl, hreached⟩ :=
      Settings.goThrough_eq_helped.mp hthrough
    exact ⟨before, written, rest, reached, hroles, hreached⟩
  · rintro ⟨before, written, rest, reached, hroles, hreached⟩
    exact ⟨_, hroles,
      Settings.goThrough_eq_helped.mpr ⟨before, written, rest, reached, rfl, hreached⟩⟩

end QueryProjection.Command
