import Mathlib.Data.List.TakeWhile
import EvmFlow.Command.Action

/-!
# What arguments are

A command line is read twice, once for the settings and once for the code. To
the settings, an argument is cut at its first equals sign, if it has one (`Text.cutAt_cases`,
`Text.cutAt_append`), which tells what it is (`Settings.Argument.is_ofText`). All
options and the flag start with a dash, so an argument that does not start with
one is no concern of the settings, whether it is cut or not
(`Settings.Argument.not_configures_of_not_dash`).

* `Settings.pieces_cons_of_option`, `Settings.pieces_cons_of_not_option`: how
  the settings read the first arguments of a command line;
* `Settings.groupInduction`: induction along the arguments that the settings
  read together;
* `Command.pieces_cons_of_file`, `Command.pieces_cons_of_option`,
  `Command.pieces_cons_of_neither`: how the search for code reads them.
-/

namespace EvmFlow

theorem of_cons_eq_ok {α ε : Type} {a : α} {x : Except ε (List α)} {l : List α}
    (h : (do return a :: (← x)) = Except.ok l) : ∃ l', x = .ok l' ∧ l = a :: l' := by
  cases x with
  | error e => cases h
  | ok l' =>
    cases h
    exact ⟨l', rfl, rfl⟩

theorem cons_eq_error_iff {α ε : Type} {a : α} {x : Except ε (List α)} {e : ε} :
    (do return a :: (← x)) = Except.error e ↔ x = .error e := by
  cases x with
  | error e' => exact Iff.rfl
  | ok l => exact iff_of_false (fun h => by cases h) fun h => by cases h

namespace Text

variable {mark c : Char} {text name : String} {value? : Option String}

theorem startsWith_append (h : startsWith c text = true) (behind : String) :
    startsWith c (text ++ behind) = true := by
  rw [startsWith, beq_iff_eq] at h ⊢
  rw [String.toList_append, List.head?_append, h]
  rfl

/-- A text without the mark is not cut, and any other text is the part before
    the first mark, the mark, and the part behind it. -/
theorem cutAt_cases (h : cutAt mark text = (name, value?)) :
    (value? = none ∧ text = name) ∨
      ∃ value, value? = some value ∧ text = name ++ (String.singleton mark ++ value) := by
  have hsplit := List.takeWhile_append_dropWhile (p := (· != mark)) (l := text.toList)
  have hhead := List.head?_dropWhile_not (· != mark) text.toList
  rw [cutAt] at h
  split at h
  · cases h
    exact .inl ⟨rfl, rfl⟩
  · next d behind hcons =>
    cases h
    rw [hcons] at hsplit hhead
    have hd : d = mark := by simpa using hhead
    refine .inr ⟨_, rfl, String.toList_inj.1 ?_⟩
    rw [String.toList_append, String.toList_append, String.toList_singleton, String.toList_ofList,
      String.toList_ofList]
    exact (hd ▸ hsplit).symm

/-- A text is cut at its first mark. -/
theorem cutAt_append (h : mark ∉ name.toList) (value : String) :
    cutAt mark (name ++ (String.singleton mark ++ value)) = (name, some value) := by
  have hall : ∀ d ∈ name.toList, (d != mark) = true := fun d hd =>
    bne_iff_ne.2 fun heq => h (heq ▸ hd)
  have htext : (name ++ (String.singleton mark ++ value)).toList =
      name.toList ++ mark :: value.toList := by
    rw [String.toList_append, String.toList_append, String.toList_singleton]
    rfl
  have hbefore : (name.toList ++ mark :: value.toList).takeWhile (· != mark) = name.toList := by
    rw [List.takeWhile_append_of_pos hall, List.takeWhile_cons_of_neg (by simp), List.append_nil]
  have hbehind : (name.toList ++ mark :: value.toList).dropWhile (· != mark) =
      mark :: value.toList := by
    rw [List.dropWhile_append_of_pos hall, List.dropWhile_cons_of_neg (by simp)]
  simp only [cutAt, htext, hbefore, hbehind, String.ofList_toList]

end Text

theorem Settings.mem_of_lookup {α : Type} {table : List (String × α)} {text : String} {a : α}
    (h : table.lookup text = some a) : (text, a) ∈ table := by
  obtain ⟨before, behind, rfl, -⟩ := List.lookup_eq_some_iff.1 h
  exact List.mem_append_right before List.mem_cons_self

/-! ## Arguments with an equals sign -/

section Assignment

variable {text value : String}

theorem lookup_assignment {α : Type} {table : List (String × α)}
    (h : ∀ entry ∈ table, '=' ∉ entry.1.toList) : table.lookup (text ++ ("=" ++ value)) = none := by
  cases hlookup : table.lookup (text ++ ("=" ++ value)) with
  | none => rfl
  | some a => exact absurd (by simp) (h (_, a) (Settings.mem_of_lookup hlookup))

theorem contains_assignment {words : List String} (h : ∀ word ∈ words, '=' ∉ word.toList) :
    ¬words.contains (text ++ ("=" ++ value)) = true := fun hmem =>
  absurd (by simp) (h _ (List.contains_iff_mem.1 hmem))

/-- An argument is cut at its equals sign in one way only. -/
theorem assignment_inj {text' value' : String} (htext : '=' ∉ text.toList)
    (htext' : '=' ∉ text'.toList) (h : text ++ ("=" ++ value) = text' ++ ("=" ++ value')) :
    text = text' ∧ value = value' := by
  have hcut := Text.cutAt_append htext value
  have hcut' := Text.cutAt_append htext' value'
  have hsame := hcut.symm.trans ((congrArg (Text.cutAt '=') h).trans hcut')
  exact ⟨congrArg Prod.fst hsame, Option.some.inj (congrArg Prod.snd hsame)⟩

end Assignment

namespace Settings

/-- An argument that concerns the settings: the flag, or an option, with a value
    after an equals sign or without. -/
def Configures (text : String) : Prop :=
  (∃ key, flags.lookup text = some key) ∨ (∃ key, valueOptions.lookup text = some key) ∨
    ∃ name key value, valueOptions.lookup name = some key ∧ text = name ++ ("=" ++ value)

/-- What a text is as an argument. -/
inductive Argument.Is (text : String) : Argument → Prop
  | flag {key : Key} : flags.lookup text = some key → Is text (.flag key)
  | option {key : Key} : valueOptions.lookup text = some key → Is text (.option text key)
  | assignment {name value : String} {key : Key} : valueOptions.lookup name = some key →
      text = name ++ ("=" ++ value) → Is text (.assignment name key value)
  | reserved {name value : String} : ¬Configures text → name ∈ reservedWords →
      text = name ++ ("=" ++ value) → Is text (.reserved name value)
  | other : ¬Configures text →
      (∀ word ∈ reservedWords, ∀ value, text ≠ word ++ ("=" ++ value)) → Is text .other

variable {text : String} {key : Key}

/-! ## One argument -/

theorem not_mem_of_valueOption (h : valueOptions.lookup text = some key) : '=' ∉ text.toList := by
  have hall : ∀ o ∈ valueOptions, '=' ∉ o.1.toList := by decide
  exact hall (text, key) (mem_of_lookup h)

theorem not_mem_of_reservedWord (h : text ∈ reservedWords) : '=' ∉ text.toList := by
  have hall : ∀ word ∈ reservedWords, '=' ∉ word.toList := by decide
  exact hall text h

theorem dash_of_valueOption (h : valueOptions.lookup text = some key) :
    Text.startsWith '-' text = true := by
  have hall : ∀ o ∈ valueOptions, Text.startsWith '-' o.1 = true := by decide
  exact hall (text, key) (mem_of_lookup h)

theorem lookup_of_not_dash (h : Text.startsWith '-' text = false) :
    valueOptions.lookup text = none := by
  cases hlookup : valueOptions.lookup text with
  | none => rfl
  | some key => cases h.symm.trans (dash_of_valueOption hlookup)

theorem dash_of_flag (h : flags.lookup text = some key) : Text.startsWith '-' text = true := by
  have hall : ∀ o ∈ flags, Text.startsWith '-' o.1 = true := by decide
  exact hall (text, key) (mem_of_lookup h)

namespace Argument

/-- An option takes the next argument. -/
theorem ofText_of_valueOption (h : valueOptions.lookup text = some key) :
    ofText text = .option text key := by
  have hall : ∀ o ∈ valueOptions, ofText o.1 = .option o.1 o.2 := by decide
  exact hall (text, key) (mem_of_lookup h)

theorem ofText_assignment (h : valueOptions.lookup text = some key) (value : String) :
    ofText (text ++ ("=" ++ value)) = .assignment text key value := by
  have hcut : Text.cutAt '=' (text ++ ("=" ++ value)) = (text, some value) :=
    Text.cutAt_append (not_mem_of_valueOption h) value
  have hflags : flags.lookup (text ++ ("=" ++ value)) = none := lookup_assignment (by decide)
  have hreserved : ¬reservedWords.contains (text ++ ("=" ++ value)) = true :=
    contains_assignment (by decide)
  simp only [ofText, hflags, if_neg hreserved, hcut, h]

/-- An argument without a dash at its start does not concern the settings. -/
theorem not_configures_of_not_dash (h : Text.startsWith '-' text = false) : ¬Configures text := by
  have hdash : ¬Text.startsWith '-' text = true := Bool.not_eq_true _ ▸ h
  rintro (⟨key, hflag⟩ | ⟨key, hoption⟩ | ⟨name, key, value, hoption, rfl⟩)
  · exact hdash (dash_of_flag hflag)
  · exact hdash (dash_of_valueOption hoption)
  · exact hdash (Text.startsWith_append (dash_of_valueOption hoption) _)

/-- Nor does one that is not the flag and has no option before its equals
    sign. -/
theorem not_configures_of_cutAt {name : String} {value? : Option String}
    (hflag : flags.lookup text = none) (hcut : Text.cutAt '=' text = (name, value?))
    (hname : valueOptions.lookup name = none) : ¬Configures text := by
  rintro (⟨key, hkey⟩ | ⟨key, hkey⟩ | ⟨name', key, value, hkey, rfl⟩)
  · cases hflag.symm.trans hkey
  · obtain ⟨-, rfl⟩ | ⟨value, -, rfl⟩ := Text.cutAt_cases hcut
    · cases hname.symm.trans hkey
    · exact not_mem_of_valueOption hkey (by simp)
  · cases hcut.symm.trans (Text.cutAt_append (not_mem_of_valueOption hkey) value)
    cases hname.symm.trans hkey

/-- What an argument is can be told from its text. -/
theorem is_ofText (text : String) : Is text (ofText text) := by
  rw [ofText]
  split
  · next key hflag => exact .flag hflag
  · next hflag =>
    split
    · next hword =>
      -- a reserved word has neither a dash nor an equals sign
      have hmem := List.contains_iff_mem.1 hword
      have hdash : ∀ word ∈ reservedWords, Text.startsWith '-' word = false := by decide
      refine .other (not_configures_of_not_dash (hdash text hmem)) ?_
      rintro word - value rfl
      exact not_mem_of_reservedWord hmem (by simp)
    · split
      · next name hcut =>
        obtain ⟨-, rfl⟩ | ⟨_, hsome, -⟩ := Text.cutAt_cases hcut
        · split
          · next key hoption => exact .option hoption
          · next hname =>
            refine .other (not_configures_of_cutAt hflag hcut hname) ?_
            rintro word hword value rfl
            have hcut' := Text.cutAt_append (not_mem_of_reservedWord hword) value
            cases congrArg Prod.snd (hcut.symm.trans hcut')
        · cases hsome
      · next name value hcut =>
        obtain ⟨hnone, -⟩ | ⟨value', hvalue, htext⟩ := Text.cutAt_cases hcut
        · cases hnone
        · cases hvalue
          split
          · next key hoption => exact .assignment hoption htext
          · next hname =>
            have hconfigures := not_configures_of_cutAt hflag hcut hname
            split
            · next hword => exact .reserved hconfigures (List.contains_iff_mem.1 hword) htext
            · next hword =>
              refine .other hconfigures ?_
              rintro word hmem value rfl
              cases hcut.symm.trans (Text.cutAt_append (not_mem_of_reservedWord hmem) value)
              exact hword (List.contains_iff_mem.2 hmem)

/-- Nothing else takes the next argument. -/
theorem lookup_of_ofText_eq_option {name : String} (h : ofText text = .option name key) :
    valueOptions.lookup text = some key := by
  have his := is_ofText text
  rw [h] at his
  cases his with
  | option hoption => exact hoption

/-- What does not concern the settings is a reserved word with a value, or
    nothing in particular. -/
theorem ofText_of_not_configures (h : ¬Configures text) :
    (ofText text = .other ∧ ∀ word ∈ reservedWords, ∀ value, text ≠ word ++ ("=" ++ value)) ∨
      ∃ name ∈ reservedWords, ∃ value, text = name ++ ("=" ++ value) ∧
        ofText text = .reserved name value := by
  have his := is_ofText text
  generalize ofText text = argument at his
  cases his with
  | flag hflag => exact absurd (.inl ⟨_, hflag⟩) h
  | option hoption => exact absurd (.inr (.inl ⟨_, hoption⟩)) h
  | assignment hoption htext => exact absurd (.inr (.inr ⟨_, _, _, hoption, htext⟩)) h
  | reserved _ hname htext => exact .inr ⟨_, hname, _, htext, rfl⟩
  | other _ hwords => exact .inl ⟨rfl, hwords⟩

/-- The piece that an argument makes up which does not take the next one. -/
def piece : Argument → Except MissingValue Piece
  | .flag key => .ok (.flag key)
  | .option name _ => .error ⟨name⟩
  | .assignment name key value => if value = "" then .error ⟨name⟩ else .ok (.assignment key value)
  | .reserved name value => if value = "" then .error ⟨name⟩ else .ok .passedOver
  | .other => .ok .passedOver

theorem width_of_piece {argument : Argument} {p : Piece} (h : argument.piece = .ok p) :
    p.width = 1 := by
  rw [piece.eq_def] at h
  split at h
  · cases h; rfl
  · cases h
  · split at h <;> cases h; rfl
  · split at h <;> cases h; rfl
  · cases h; rfl

/-- What does not concern the settings is passed over, if it can be read. -/
theorem piece_of_not_configures {p : Piece} (h : ¬Configures text)
    (hp : (ofText text).piece = .ok p) : p = .passedOver := by
  rcases ofText_of_not_configures h with ⟨hother, -⟩ | ⟨name, -, value, -, hreserved⟩
  · rw [hother] at hp
    cases hp
    rfl
  · rw [hreserved, piece] at hp
    split at hp <;> cases hp
    rfl

theorem piece_of_not_dash {p : Piece} (h : Text.startsWith '-' text = false)
    (hp : (ofText text).piece = .ok p) : p = .passedOver :=
  piece_of_not_configures (not_configures_of_not_dash h) hp

end Argument

/-! ## The first piece -/

variable {rest : List String}

/-- An option is read together with the argument behind it. -/
theorem pieces_cons_of_option (h : valueOptions.lookup text = some key) (value : String) :
    pieces (text :: value :: rest) =
      if Text.startsWith '-' value then .error ⟨text⟩
      else do return .option key value :: (← pieces rest) := by
  rw [pieces.eq_def]
  simp only [Argument.ofText_of_valueOption h]

theorem pieces_singleton_of_option (h : valueOptions.lookup text = some key) :
    pieces [text] = .error ⟨text⟩ := by
  rw [pieces.eq_def]
  simp only [Argument.ofText_of_valueOption h]

/-- Any other argument is read alone. -/
theorem pieces_cons_of_not_option (h : valueOptions.lookup text = none) :
    pieces (text :: rest) = do
      let p ← (Argument.ofText text).piece
      return p :: (← pieces rest) := by
  rw [pieces.eq_def]
  simp only
  split
  · next key hflag => rw [hflag]; rfl
  · next name key hoption =>
    rw [Argument.lookup_of_ofText_eq_option hoption] at h
    cases h
  · next name key value hassignment =>
    rw [hassignment, Argument.piece]
    split <;> rfl
  · next name value hreserved =>
    rw [hreserved, Argument.piece]
    split <;> rfl
  · next hother => rw [hother]; rfl

/-- Arguments that are read together: an option and the one behind it, or
    any other argument by itself. -/
inductive IsGroup : List String → Prop
  | pair {text value : String} {key : Key} : valueOptions.lookup text = some key →
      IsGroup [text, value]
  | single {text : String} : valueOptions.lookup text = none → IsGroup [text]

/-- A command line is one group behind the other, until it ends, maybe with an
    option that has nothing behind it. -/
@[elab_as_elim]
theorem groupInduction {motive : List String → Prop} (nil : motive [])
    (last : ∀ text key, valueOptions.lookup text = some key → motive [text])
    (append : ∀ group rest, IsGroup group → motive rest → motive (group ++ rest)) :
    ∀ arguments, motive arguments
  | [] => nil
  | [text] =>
    match hoption : valueOptions.lookup text with
    | some key => last text key hoption
    | none => append [text] [] (.single hoption) nil
  | text :: value :: rest =>
    match hoption : valueOptions.lookup text with
    | some _ => append [text, value] rest (.pair hoption) (groupInduction nil last append rest)
    | none =>
      append [text] (value :: rest) (.single hoption)
        (groupInduction nil last append (value :: rest))

theorem of_pieces_cons {given : List Piece} (hoption : valueOptions.lookup text = none)
    (h : pieces (text :: rest) = .ok given) :
    ∃ p given', (Argument.ofText text).piece = .ok p ∧ pieces rest = .ok given' ∧
      given = p :: given' := by
  rw [pieces_cons_of_not_option hoption] at h
  cases hp : (Argument.ofText text).piece with
  | error e =>
    rw [hp] at h
    cases h
  | ok p =>
    rw [hp] at h
    obtain ⟨given', hrest, rfl⟩ := of_cons_eq_ok h
    exact ⟨p, given', rfl, hrest, rfl⟩

end Settings

namespace Command

variable {text : String} {rest : List String}

theorem isValueOption_iff : isValueOption text = true ↔
    ∃ key, Settings.valueOptions.lookup text = some key :=
  Option.isSome_iff_exists

theorem not_isValueOption_iff : ¬isValueOption text = true ↔
    Settings.valueOptions.lookup text = none := by
  rw [isValueOption, Bool.not_eq_true, Option.isSome_eq_false_iff, Option.isNone_iff_eq_none]

/-- A file option is no option of the settings. -/
theorem not_isValueOption_of_file (h : fileOptions.contains text = true) :
    ¬isValueOption text = true := by
  have hall : ∀ o ∈ fileOptions, ¬isValueOption o = true := by decide
  exact hall text (List.contains_iff_mem.1 h)

/-- A file option is read together with the path behind it. -/
theorem pieces_cons_of_file (h : fileOptions.contains text = true) (path : String) :
    pieces (text :: path :: rest) =
      if Text.startsWith '-' path then .error .missingPath
      else do return .file path :: (← pieces rest) := by
  rw [pieces.eq_def]
  simp only [h, if_true]

theorem pieces_singleton_of_file (h : fileOptions.contains text = true) :
    pieces [text] = .error .missingPath := by
  rw [pieces.eq_def]
  simp only [h, if_true]

/-- An option of the settings is read together with the argument behind it. -/
theorem pieces_cons_of_option (h : isValueOption text = true) (value : String) :
    pieces (text :: value :: rest) = do return .setting :: (← pieces rest) := by
  have hfile : ¬fileOptions.contains text = true := fun hf => not_isValueOption_of_file hf h
  rw [pieces.eq_def]
  simp only [if_neg hfile, if_pos h]

/-- Any other argument is read alone. -/
theorem pieces_cons_of_neither (hfile : ¬fileOptions.contains text = true)
    (h : ¬isValueOption text = true) :
    pieces (text :: rest) = do
      return (if Text.startsWith '-' text then .passedOver else .hex text) :: (← pieces rest) := by
  rw [pieces.eq_def]
  simp only [if_neg hfile, if_neg h]
  split <;> rfl

/-- The one code is given by one of the pieces. -/
theorem of_source_eq_ok {arguments : List String} {source : Source}
    (h : Command.source arguments = .ok source) :
    ∃ found, pieces arguments = .ok found ∧ found.filterMap Piece.source? = [source] := by
  rw [Command.source] at h
  cases hfound : pieces arguments with
  | error m =>
    rw [hfound] at h
    cases h
  | ok found =>
    rw [hfound] at h
    simp only [bind, Except.bind] at h
    split at h
    · cases h
    · next hsources =>
      cases h
      exact ⟨found, rfl, hsources⟩
    · cases h

end Command

end EvmFlow
