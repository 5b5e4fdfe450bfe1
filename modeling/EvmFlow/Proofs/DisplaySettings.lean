import EvmFlow.Proofs.Arguments
import EvmFlow.Settings.Resolve

/-!
# Settings that only concern what is shown

The format and the log level decide how the outcome of a command is shown. Two
command lines may differ only in the options that set them
(`Command.DisplayVariant`). Then they ask for the same action
(`Command.DisplayVariant.action_eq`), and what they set otherwise is the same
(`Command.DisplayVariant.kept_eq`).

* `Settings.map_judged_resolve`: if the format and the log level are known, the
  settings that count in judging code are the same, or there are none for the
  same reason.
-/

namespace EvmFlow

namespace Settings

/-- The keys that only concern what is shown. -/
def Key.isDisplay : Key → Bool
  | logLevel | format => true
  | hardfork | strictEnd => false

/-- What a piece sets, apart from what is shown. -/
def Piece.kept? (piece : Piece) : Option (Key × String) :=
  piece.setting?.filter fun setting => !setting.1.isDisplay

/-- Arguments that set what is shown: an option and its value, in two arguments
    or in one. -/
inductive SetsDisplay : List String → Prop
  | option {text value : String} {key : Key} : valueOptions.lookup text = some key →
      key.isDisplay = true → Text.startsWith '-' value = false → SetsDisplay [text, value]
  | assignment {text value : String} {key : Key} : valueOptions.lookup text = some key →
      key.isDisplay = true → value ≠ "" → SetsDisplay [text ++ ("=" ++ value)]

end Settings

namespace Command

open Settings (SetsDisplay)

/-- Command lines that differ only in what they set to be shown. An option and
    the argument behind it stay together. -/
inductive DisplayVariant : List String → List String → Prop
  | same (arguments : List String) : DisplayVariant arguments arguments
  | alone {text : String} {rest rest' : List String} : ¬fileOptions.contains text = true →
      ¬isValueOption text = true → DisplayVariant rest rest' →
      DisplayVariant (text :: rest) (text :: rest')
  | pair {text behind : String} {rest rest' : List String} :
      fileOptions.contains text = true ∨ isValueOption text = true → DisplayVariant rest rest' →
      DisplayVariant (text :: behind :: rest) (text :: behind :: rest')
  | left {setting rest rest' : List String} : SetsDisplay setting → DisplayVariant rest rest' →
      DisplayVariant (setting ++ rest) rest'
  | right {setting rest rest' : List String} : SetsDisplay setting → DisplayVariant rest rest' →
      DisplayVariant rest (setting ++ rest')

end Command

theorem of_map_eq_map {α β ε : Type} {f : α → β} {x y : Except ε α} (h : x.map f = y.map f) :
    (∃ e, x = .error e ∧ y = .error e) ∨ ∃ a b, x = .ok a ∧ y = .ok b ∧ f a = f b := by
  match x, y, h with
  | .error e, .error e', h => exact .inl ⟨e, rfl, congrArg _ (Except.error.inj h).symm⟩
  | .ok a, .ok b, h => exact .inr ⟨a, b, rfl, rfl, Except.ok.inj h⟩

/-! ## One setting -/

namespace Settings

variable {text : String} {key : Key} {setting : List String}

/-- A setting that concerns what is shown is one piece, of which nothing is
    kept. -/
theorem SetsDisplay.pieces_append (h : SetsDisplay setting) (rest : List String) :
    ∃ p : Piece, p.kept? = none ∧ pieces (setting ++ rest) = do return p :: (← pieces rest) := by
  cases h with
  | @option text value key hoption hdisplay hdash =>
    refine ⟨.option key value, by simp [Piece.kept?, Piece.setting?, hdisplay], ?_⟩
    rw [List.cons_append, List.singleton_append, pieces_cons_of_option hoption, hdash]
    rfl
  | @assignment text value key hoption hdisplay hvalue =>
    refine ⟨.assignment key value, by simp [Piece.kept?, Piece.setting?, hdisplay], ?_⟩
    rw [List.singleton_append, pieces_cons_of_not_option (lookup_assignment (by decide)),
      Argument.ofText_assignment hoption, Argument.piece, if_neg hvalue]
    rfl

end Settings

namespace Command

open Settings (SetsDisplay)

variable {setting arguments arguments' : List String}

/-- To the search for code it is one piece as well, which gives none. -/
theorem pieces_append_of_setsDisplay (h : SetsDisplay setting) (rest : List String) :
    ∃ p : Piece, p.source? = none ∧ pieces (setting ++ rest) = do return p :: (← pieces rest) := by
  cases h with
  | @option text value key hoption =>
    exact ⟨.setting, rfl, pieces_cons_of_option (isValueOption_iff.2 ⟨key, hoption⟩) value⟩
  | @assignment text value key hoption =>
    have hdash := Text.startsWith_append (Settings.dash_of_valueOption hoption) ("=" ++ value)
    refine ⟨.passedOver, rfl, ?_⟩
    rw [List.singleton_append, pieces_cons_of_neither (contains_assignment (by decide))
      (not_isValueOption_iff.2 (lookup_assignment (by decide))), if_pos hdash]

/-- It asks for nothing that is displayed instead. -/
theorem any_append_of_setsDisplay {words : List String}
    (hdash : ∀ word ∈ words, Text.startsWith '-' word = true)
    (hequals : ∀ word ∈ words, '=' ∉ word.toList)
    (hoptions : ∀ o ∈ Settings.valueOptions, ¬words.contains o.1 = true) (h : SetsDisplay setting)
    (rest : List String) : (setting ++ rest).any words.contains = rest.any words.contains := by
  have hnone : setting.any words.contains = false := by
    cases h with
    | @option text value key hoption _ hvalue =>
      have htext := hoptions (text, key) (Settings.mem_of_lookup hoption)
      have hbehind : ¬words.contains value = true := fun hmem =>
        Bool.false_ne_true (hvalue.symm.trans (hdash value (List.contains_iff_mem.1 hmem)))
      simp only [List.any_cons, List.any_nil, Bool.or_false, Bool.or_eq_false_iff]
      exact ⟨Bool.eq_false_iff.2 htext, Bool.eq_false_iff.2 hbehind⟩
    | assignment =>
      simp only [List.any_cons, List.any_nil, Bool.or_false]
      exact Bool.eq_false_iff.2 (contains_assignment hequals)
  rw [List.any_append, hnone, Bool.false_or]

/-! ## Variants -/

section Congruence

variable {α β ε : Type} {f : α → Option β} {x y : Except ε (List α)}

/-- What is read of a list does not change behind its first element. -/
theorem map_cons_congr (h : x.map (List.filterMap f) = y.map (List.filterMap f)) (a : α) :
    (do return a :: (← x)).map (List.filterMap f) =
      (do return a :: (← y)).map (List.filterMap f) := by
  rcases of_map_eq_map h with ⟨e, rfl, rfl⟩ | ⟨l, l', rfl, rfl, hl⟩
  · rfl
  · change Except.ok ((a :: l).filterMap f) = Except.ok ((a :: l').filterMap f)
    rw [List.filterMap_cons, List.filterMap_cons, hl]

/-- Nothing is read of an element that is left out. -/
theorem map_cons_of_none {a : α} (h : f a = none) :
    (do return a :: (← x)).map (List.filterMap f) = x.map (List.filterMap f) := by
  match x with
  | .error e => rfl
  | .ok l => exact congrArg Except.ok (List.filterMap_cons_none h)

/-- The same arguments keep the same settings, behind one that is no option. -/
theorem kept_cons_congr {text : String} {rest rest' : List String}
    (hoption : Settings.valueOptions.lookup text = none)
    (h : (Settings.pieces rest').map (List.filterMap Settings.Piece.kept?) =
      (Settings.pieces rest).map (List.filterMap Settings.Piece.kept?)) :
    (Settings.pieces (text :: rest')).map (List.filterMap Settings.Piece.kept?) =
      (Settings.pieces (text :: rest)).map (List.filterMap Settings.Piece.kept?) := by
  rw [Settings.pieces_cons_of_not_option hoption, Settings.pieces_cons_of_not_option hoption]
  match (Settings.Argument.ofText text).piece with
  | .error e => rfl
  | .ok p => exact map_cons_congr h p

end Congruence

/-- The one code among those given. -/
def onlySource : List Source → Except Misuse Source
  | [] => .error .missingCode
  | [source] => .ok source
  | _ => .error .multipleSources

/-- The source depends on the pieces only by the code that they give. -/
theorem source_eq : source arguments =
    ((pieces arguments).map (List.filterMap Piece.source?)).bind onlySource := by
  rw [source]
  cases pieces arguments with
  | error m => rfl
  | ok found => rfl

namespace DisplayVariant

/-- The code that is given is the same. -/
theorem sources_eq (h : DisplayVariant arguments arguments') :
    (pieces arguments').map (List.filterMap Piece.source?) =
      (pieces arguments).map (List.filterMap Piece.source?) := by
  induction h with
  | same => rfl
  | alone hfile hoption _ ih =>
    rw [pieces_cons_of_neither hfile hoption, pieces_cons_of_neither hfile hoption]
    exact map_cons_congr ih _
  | pair htext _ ih =>
    rcases htext with hfile | hoption
    · rw [pieces_cons_of_file hfile, pieces_cons_of_file hfile]
      split
      · rfl
      · exact map_cons_congr ih _
    · rw [pieces_cons_of_option hoption, pieces_cons_of_option hoption]
      exact map_cons_congr ih _
  | left hsetting _ ih =>
    obtain ⟨p, hp, hpieces⟩ := pieces_append_of_setsDisplay hsetting _
    rw [hpieces, map_cons_of_none hp, ih]
  | right hsetting _ ih =>
    obtain ⟨p, hp, hpieces⟩ := pieces_append_of_setsDisplay hsetting _
    rw [hpieces, map_cons_of_none hp, ih]

/-- The same words are found in them. -/
theorem any_eq (words : List String) (hdash : ∀ word ∈ words, Text.startsWith '-' word = true)
    (hequals : ∀ word ∈ words, '=' ∉ word.toList)
    (hoptions : ∀ o ∈ Settings.valueOptions, ¬words.contains o.1 = true)
    (h : DisplayVariant arguments arguments') :
    arguments'.any words.contains = arguments.any words.contains := by
  induction h with
  | same => rfl
  | alone _ _ _ ih => rw [List.any_cons, List.any_cons, ih]
  | pair _ _ ih => rw [List.any_cons, List.any_cons, List.any_cons, List.any_cons, ih]
  | left hsetting _ ih => rw [any_append_of_setsDisplay hdash hequals hoptions hsetting, ih]
  | right hsetting _ ih => rw [any_append_of_setsDisplay hdash hequals hoptions hsetting, ih]

/-- The same is asked for. -/
theorem action_eq (h : DisplayVariant arguments arguments') :
    action arguments' = action arguments := by
  rw [action, action, any_eq helpFlags (by decide) (by decide) (by decide) h,
    any_eq versionFlags (by decide) (by decide) (by decide) h, source_eq, source_eq, h.sources_eq]

/-- All settings but those that concern what is shown are the same, if the
    search for code can read the command line. -/
theorem kept_eq (h : DisplayVariant arguments arguments') {found : List Piece}
    (hfound : pieces arguments = .ok found) :
    (Settings.pieces arguments').map (List.filterMap Settings.Piece.kept?) =
      (Settings.pieces arguments).map (List.filterMap Settings.Piece.kept?) := by
  induction h generalizing found with
  | same => rfl
  | alone hfile hoption _ ih =>
    rw [pieces_cons_of_neither hfile hoption] at hfound
    obtain ⟨found', hrest, -⟩ := of_cons_eq_ok hfound
    exact kept_cons_congr (not_isValueOption_iff.1 hoption) (ih hrest)
  | @pair text behind rest rest' htext _ ih =>
    rcases htext with hfile | hoption
    · -- the settings pass over the file option and the path one by one
      rw [pieces_cons_of_file hfile] at hfound
      split at hfound
      · cases hfound
      · next hdash =>
        obtain ⟨found', hrest, -⟩ := of_cons_eq_ok hfound
        exact kept_cons_congr (not_isValueOption_iff.1 (not_isValueOption_of_file hfile))
          (kept_cons_congr (Settings.lookup_of_not_dash (Bool.eq_false_iff.2 hdash)) (ih hrest))
    · rw [pieces_cons_of_option hoption] at hfound
      obtain ⟨found', hrest, -⟩ := of_cons_eq_ok hfound
      obtain ⟨key, hkey⟩ := isValueOption_iff.1 hoption
      rw [Settings.pieces_cons_of_option hkey, Settings.pieces_cons_of_option hkey]
      split
      · rfl
      · exact map_cons_congr (ih hrest) _
  | left hsetting _ ih =>
    obtain ⟨p, -, hpieces⟩ := pieces_append_of_setsDisplay hsetting _
    rw [hpieces] at hfound
    obtain ⟨found', hrest, -⟩ := of_cons_eq_ok hfound
    obtain ⟨q, hq, hgiven⟩ := hsetting.pieces_append _
    rw [hgiven, map_cons_of_none hq, ih hrest]
  | right hsetting _ ih =>
    obtain ⟨q, hq, hgiven⟩ := hsetting.pieces_append _
    rw [hgiven, map_cons_of_none hq, ih hfound]

end DisplayVariant

end Command

/-! ## What counts in judging code -/

namespace Settings

variable {given given' : List Piece} {sources sources' : Sources} {key : Key}

/-- What of the settings counts when code is judged. -/
def judged (s : Settings) : Hardfork × Bool := (s.hardfork, s.strictEnd)

/-- The format and the log level in force have known names. -/
def ShownKnown (sources : Sources) : Prop :=
  ∀ given, pieces sources.arguments = .ok given →
    ((raw sources given .logLevel).text?.bind Log.Level.ofName?).isSome ∧
      ((raw sources given .format).text?.bind Format.ofName?).isSome

theorem lookup_filter_isDisplay (hkey : key.isDisplay = false) (settings : List (Key × String)) :
    (settings.filter fun setting => !setting.1.isDisplay).lookup key = settings.lookup key := by
  induction settings with
  | nil => rfl
  | cons setting rest ih =>
    obtain ⟨k, value⟩ := setting
    by_cases hk : key = k
    · subst hk
      simp [hkey]
    · cases hdisplay : k.isDisplay <;>
        simp [hdisplay, List.lookup_cons, beq_eq_false_iff_ne.2 hk, ih]

theorem assigned?_eq_lookup_kept (hkey : key.isDisplay = false) :
    assigned? given key = (given.filterMap Piece.kept?).reverse.lookup key := by
  have hkept : given.filterMap Piece.kept? =
      (given.filterMap Piece.setting?).filter fun setting => !setting.1.isDisplay :=
    (List.filter_filterMap ..).symm
  rw [hkept, ← List.filter_reverse, lookup_filter_isDisplay hkey, assigned?]

/-- Sources that agree apart from what is shown. -/
structure KeptAlike (sources sources' : Sources) : Prop where
  kept : (pieces sources'.arguments).map (List.filterMap Piece.kept?) =
    (pieces sources.arguments).map (List.filterMap Piece.kept?)
  environment : ∀ key : Key, key.isDisplay = false →
    sources'.environment key.variableName = sources.environment key.variableName
  defaults : ∀ key : Key, key.isDisplay = false → sources'.defaults key = sources.defaults key

theorem raw_eq (h : KeptAlike sources sources')
    (hgiven : given'.filterMap Piece.kept? = given.filterMap Piece.kept?)
    (hkey : key.isDisplay = false) : raw sources' given' key = raw sources given key := by
  rw [raw, raw, assigned?_eq_lookup_kept hkey, assigned?_eq_lookup_kept hkey, hgiven,
    environmentValue?, environmentValue?, h.environment key hkey, h.defaults key hkey]

/-- A known format and a known log level do not matter. -/
theorem map_judged_decode {raw : Key → Json}
    (hlevel : ((raw .logLevel).text?.bind Log.Level.ofName?).isSome)
    (hformat : ((raw .format).text?.bind Format.ofName?).isSome) :
    (decode raw).map judged = do
      let hardfork ← Hardfork.ofName? (← (raw .hardfork).text?)
      let strictEnd ← boolOfText? (← (raw .strictEnd).text?)
      return (hardfork, strictEnd) := by
  obtain ⟨level, hlevel⟩ := Option.isSome_iff_exists.1 hlevel
  obtain ⟨levelName, hlevelName, hlevel⟩ := Option.bind_eq_some_iff.1 hlevel
  obtain ⟨format, hformat⟩ := Option.isSome_iff_exists.1 hformat
  obtain ⟨formatName, hformatName, hformat⟩ := Option.bind_eq_some_iff.1 hformat
  rw [decode, hlevelName, hformatName]
  simp only [Option.bind_eq_bind, Option.bind_some, hlevel, hformat, Option.map_bind,
    Function.comp_def, Option.pure_def, Option.map_some, judged]

/-- The settings are resolved alike, as far as they count in judging code, or
    fail alike. -/
theorem map_judged_resolve (h : KeptAlike sources sources') (hknown : ShownKnown sources)
    (hknown' : ShownKnown sources') :
    (resolve sources').map judged = (resolve sources).map judged := by
  rcases of_map_eq_map h.kept with ⟨e, hx, hy⟩ | ⟨given', given, hx, hy, hgiven⟩
  · rw [resolve, resolve, hx, hy]
  · have hdecode : (decode (raw sources' given')).map judged =
        (decode (raw sources given)).map judged := by
      rw [map_judged_decode (hknown' given' hx).1 (hknown' given' hx).2,
        map_judged_decode (hknown given hy).1 (hknown given hy).2,
        raw_eq h hgiven rfl, raw_eq h hgiven rfl]
    simp only [resolve, hx, hy]
    match decode (raw sources' given'), decode (raw sources given), hdecode with
    | none, none, _ => rfl
    | some s', some s, hdecode => exact congrArg Except.ok (Option.some.inj hdecode)

end Settings

end EvmFlow
