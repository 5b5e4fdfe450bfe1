import EvmFlow.Proofs.DisplaySettings

/-!
# Arguments that are passed over

A command line also holds arguments that do not concern the settings: code in
place, a file option and its path, and anything else that is neither the flag
nor an option. They may be put in anywhere but behind an option, which would
take them for its value (`Settings.EndsInOption`): the arguments before and
behind are read as if nothing stood between them (`Settings.pieces_append`), and
a piece that sets nothing does not count (`Settings.resolve_congr`).

There is one exception. A reserved word with an equals sign and nothing behind
it is taken for an option that lacks its value.

* `Settings.resolve_insert_ne_iff`: exactly when an argument that does not
  concern the settings changes what they are, and that code given in place or
  by a file does not, this exception apart.
-/

namespace EvmFlow.Settings

/-- The last of the arguments is an option, which takes the next one. -/
def EndsInOption (arguments : List String) : Prop :=
  ∃ option key, arguments.getLast? = some option ∧ valueOptions.lookup option = some key

/-- A reserved word, followed by an equals sign and nothing else. -/
def IsBareWord (text : String) : Prop := ∃ word ∈ reservedWords, text = word ++ "="

/-- Arguments that give code: a text in place, or a file option and a path. -/
inductive GivesCode : List String → Prop
  | hex {text : String} : Text.startsWith '-' text = false → GivesCode [text]
  | file {option path : String} : option ∈ Command.fileOptions →
      Text.startsWith '-' path = false → GivesCode [option, path]

variable {arguments arguments' before behind group rest : List String} {x word : String}
  {environment : String → Option String} {defaults : Key → Option Json}

/-! ## Reading in two parts -/

/-- The first arguments that are read together make up a piece, or fail,
    whatever follows. -/
theorem IsGroup.exists_piece (h : IsGroup group) :
    ∃ piece : Except MissingValue Piece, ∀ rest,
      pieces (group ++ rest) = do return (← piece) :: (← pieces rest) := by
  cases h with
  | @pair text value key hoption =>
    refine ⟨if Text.startsWith '-' value then .error ⟨text⟩ else .ok (.option key value),
      fun rest => ?_⟩
    rw [List.cons_append, List.singleton_append, pieces_cons_of_option hoption]
    split <;> rfl
  | single hnone => exact ⟨_, fun rest => pieces_cons_of_not_option hnone⟩

theorem EndsInOption.append (h : EndsInOption rest) (group : List String) :
    EndsInOption (group ++ rest) := by
  obtain ⟨option, key, hlast, hoption⟩ := h
  exact ⟨option, key, by rw [List.getLast?_append, hlast, Option.some_or], hoption⟩

/-- Arguments are read in two parts, unless the first ends in an option. -/
theorem pieces_append (h : ¬EndsInOption before) (behind : List String) :
    pieces (before ++ behind) = do return (← pieces before) ++ (← pieces behind) := by
  induction before using groupInduction with
  | nil =>
    rw [List.nil_append, pieces]
    cases pieces behind <;> rfl
  | last text key hoption => exact absurd ⟨text, key, rfl, hoption⟩ h
  | append group rest hgroup ih =>
    obtain ⟨piece, hpiece⟩ := hgroup.exists_piece
    rw [List.append_assoc, hpiece, hpiece, ih fun hrest => h (hrest.append group)]
    cases piece with
    | error e => rfl
    | ok p =>
      cases pieces rest with
      | error e => rfl
      | ok given => cases pieces behind <;> rfl

/-- The settings depend on the pieces of the command line only by what these
    set. -/
theorem resolve_congr
    (h : (pieces arguments').map (List.filterMap Piece.setting?) =
      (pieces arguments).map (List.filterMap Piece.setting?)) :
    resolve ⟨arguments', environment, defaults⟩ = resolve ⟨arguments, environment, defaults⟩ := by
  rcases of_map_eq_map h with ⟨e, hx, hy⟩ | ⟨given', given, hx, hy, hset⟩
  · simp only [resolve, hx, hy]
  · have hraw : raw ⟨arguments', environment, defaults⟩ given' =
        raw ⟨arguments, environment, defaults⟩ given := by
      funext key
      simp only [raw, assigned?, hset]
    simp only [resolve, hx, hy, hraw]

/-! ## One argument more -/

namespace Argument

theorem piece_of_isBareWord (h : word ∈ reservedWords) (hx : ¬Configures (word ++ "=")) :
    (ofText (word ++ "=")).piece = .error ⟨word⟩ := by
  have hempty : word ++ "=" = word ++ ("=" ++ "") := by rw [String.append_empty]
  rcases ofText_of_not_configures hx with ⟨-, hwords⟩ | ⟨name, hname, value, htext, hreserved⟩
  · exact absurd hempty (hwords word h "")
  · obtain ⟨rfl, rfl⟩ := assignment_inj (not_mem_of_reservedWord h) (not_mem_of_reservedWord hname)
      (hempty.symm.trans htext)
    rw [hreserved, piece, if_pos rfl]

theorem piece_of_not_isBareWord (hx : ¬Configures x) (h : ¬IsBareWord x) :
    (ofText x).piece = .ok .passedOver := by
  rcases ofText_of_not_configures hx with ⟨hother, -⟩ | ⟨name, hname, value, htext, hreserved⟩
  · rw [hother, piece]
  · have hvalue : value ≠ "" := by
      rintro rfl
      exact h ⟨name, hname, by rw [htext, String.append_empty]⟩
    rw [hreserved, piece, if_neg hvalue]

end Argument

theorem lookup_of_not_configures (h : ¬Configures x) : valueOptions.lookup x = none := by
  cases hlookup : valueOptions.lookup x with
  | none => rfl
  | some key => exact absurd (.inr (.inl ⟨key, hlookup⟩)) h

/-- A file option does not concern the settings. -/
theorem not_configures_of_file (h : x ∈ Command.fileOptions) : ¬Configures x := by
  have hall : ∀ o ∈ Command.fileOptions, Argument.ofText o = .other := by decide
  have his := Argument.is_ofText x
  rw [hall x h] at his
  cases his with
  | other hx => exact hx

/-- An argument that makes up a piece which sets nothing does not count. -/
theorem resolve_insert (hx : ¬Configures x) (hword : ¬IsBareWord x) (hbefore : ¬EndsInOption before) :
    resolve ⟨before ++ x :: behind, environment, defaults⟩ =
      resolve ⟨before ++ behind, environment, defaults⟩ := by
  apply resolve_congr
  rw [pieces_append hbefore, pieces_append hbefore,
    pieces_cons_of_not_option (lookup_of_not_configures hx),
    Argument.piece_of_not_isBareWord hx hword]
  cases pieces before with
  | error e => rfl
  | ok given =>
    cases pieces behind with
    | error e => rfl
    | ok given' =>
      show Except.ok ((given ++ .passedOver :: given').filterMap Piece.setting?) =
        Except.ok ((given ++ given').filterMap Piece.setting?)
      rw [List.filterMap_append, List.filterMap_append, List.filterMap_cons_none rfl]

/-- A bare reserved word is reported, unless the arguments before it cannot be
    read. -/
theorem resolve_insert_of_isBareWord (hword : word ∈ reservedWords)
    (hx : ¬Configures (word ++ "=")) (hbefore : ¬EndsInOption before) {given : List Piece}
    (hgiven : pieces before = .ok given) :
    resolve ⟨before ++ (word ++ "=") :: behind, environment, defaults⟩ =
      .error (.missingValue word) := by
  have hpieces : pieces (before ++ (word ++ "=") :: behind) = .error ⟨word⟩ := by
    rw [pieces_append hbefore, pieces_cons_of_not_option (lookup_of_not_configures hx),
      Argument.piece_of_isBareWord hword hx, hgiven]
    rfl
  simp only [resolve, hpieces]

/-- If the arguments before cannot be read, those behind do not matter. -/
theorem resolve_append_of_error (hbefore : ¬EndsInOption before) {e : MissingValue}
    (h : pieces before = .error e) :
    resolve ⟨before ++ behind, environment, defaults⟩ = .error (.missingValue e.option) := by
  have hpieces : pieces (before ++ behind) = .error e := by
    rw [pieces_append hbefore, h]
    rfl
  simp only [resolve, hpieces]

/-- Code in place, or a file option and its path, can be left out. -/
theorem resolve_insert_code {source : List String} (h : GivesCode source)
    (hword : ∀ text ∈ source, ¬IsBareWord text) (hbefore : ¬EndsInOption before) :
    resolve ⟨before ++ (source ++ behind), environment, defaults⟩ =
      resolve ⟨before ++ behind, environment, defaults⟩ := by
  cases h with
  | hex hdash =>
    exact resolve_insert (Argument.not_configures_of_not_dash hdash)
      (hword _ (List.mem_singleton_self _)) hbefore
  | @file option path hoption hdash =>
    rw [List.forall_mem_cons] at hword
    have hfile := not_configures_of_file hoption
    calc resolve ⟨before ++ option :: path :: behind, environment, defaults⟩
      _ = resolve ⟨before ++ path :: behind, environment, defaults⟩ :=
        resolve_insert hfile hword.1 hbefore
      _ = resolve ⟨before ++ behind, environment, defaults⟩ :=
        resolve_insert (Argument.not_configures_of_not_dash hdash)
          (hword.2 _ (List.mem_singleton_self _)) hbefore

/-- An argument that does not concern the settings is put in, not behind an
    option. This changes what they are only if the argument is a bare reserved
    word and what stands before it can be read; the word is then reported as an
    option that lacks its value. So code in place and file options with their
    paths can be left out, bare reserved words apart. -/
theorem resolve_insert_ne_iff (hx : ¬Configures x) (hbefore : ¬EndsInOption before) :
    (resolve ⟨before ++ x :: behind, environment, defaults⟩ ≠
        resolve ⟨before ++ behind, environment, defaults⟩ ↔
      ∃ word ∈ reservedWords, x = word ++ "=" ∧ (∃ given, pieces before = .ok given) ∧
        resolve ⟨before ++ behind, environment, defaults⟩ ≠ .error (.missingValue word)) ∧
    (∀ word ∈ reservedWords, x = word ++ "=" → (∃ given, pieces before = .ok given) →
      resolve ⟨before ++ x :: behind, environment, defaults⟩ = .error (.missingValue word)) ∧
    ∀ source, GivesCode source → (∀ text ∈ source, ¬IsBareWord text) →
      resolve ⟨before ++ (source ++ behind), environment, defaults⟩ =
        resolve ⟨before ++ behind, environment, defaults⟩ := by
  refine ⟨⟨fun hne => ?_, ?_⟩, ?_, fun source h hword => resolve_insert_code h hword hbefore⟩
  · by_cases hbare : IsBareWord x
    · obtain ⟨word, hword, rfl⟩ := hbare
      cases hpieces : pieces before with
      | error e =>
        rw [resolve_append_of_error hbefore hpieces, resolve_append_of_error hbefore hpieces] at hne
        exact absurd rfl hne
      | ok given =>
        rw [resolve_insert_of_isBareWord hword hx hbefore hpieces] at hne
        exact ⟨word, hword, rfl, ⟨given, rfl⟩, hne.symm⟩
    · exact absurd (resolve_insert hx hbare hbefore) hne
  · rintro ⟨word, hword, rfl, ⟨given, hgiven⟩, hne⟩
    rw [resolve_insert_of_isBareWord hword hx hbefore hgiven]
    exact hne.symm
  · rintro word hword rfl ⟨given, hgiven⟩
    exact resolve_insert_of_isBareWord hword hx hbefore hgiven

/-- Without other arguments the settings are the built-in ones. With a reserved
    word and an equals sign there are none, though no option is given. -/
theorem resolve_insert_constructor :
    ¬Configures "constructor=" ∧ ¬EndsInOption [] ∧
    resolve ⟨[], fun _ => none, fun _ => none⟩ = .ok ⟨.cancun, .info, .text, false⟩ ∧
    resolve ⟨["constructor="], fun _ => none, fun _ => none⟩ =
      .error (.missingValue "constructor") ∧
    resolve ⟨["constructor="], fun _ => none, fun _ => none⟩ ≠
      resolve ⟨[], fun _ => none, fun _ => none⟩ := by
  have hx : ¬Configures "constructor=" := Argument.not_configures_of_not_dash (by decide)
  have hbefore : ¬EndsInOption [] := fun ⟨_, _, h, _⟩ => (Option.some_ne_none _).symm h
  have hword : "constructor" ∈ reservedWords := by decide
  have hdefault : resolve ⟨[], fun _ => none, fun _ => none⟩ =
      .ok ⟨.cancun, .info, .text, false⟩ := by decide +kernel
  obtain ⟨hiff, hreport, -⟩ :=
    @resolve_insert_ne_iff [] [] "constructor=" (fun _ => none) (fun _ => none) hx hbefore
  refine ⟨hx, hbefore, hdefault, hreport _ hword rfl ⟨[], rfl⟩, hiff.2 ⟨_, hword, rfl, ⟨[], rfl⟩, ?_⟩⟩
  rw [List.nil_append, hdefault]
  exact fun h => by cases h

end EvmFlow.Settings
