import EvmFlow.Proofs.Arguments
import EvmFlow.Settings.Resolve

/-!
# Where a setting comes from

The arguments of a command line are looked at one group behind the other
(`Settings.Stands`), so the value of an option is not taken for an argument of
its own. At each of these positions an option may lack its value
(`Settings.Lacks`), or a key may be given one (`Settings.Gives`). The first
option that lacks its value is what is reported, whatever else is set. If none
does, the raw value of a key is the last one given to it, else that of its
environment variable, else the given default, else the built-in one
(`Settings.IsRaw`). The settings are those of the four raw values.

Reserved words set nothing, but lack a value as options do, so none may be
among the arguments here.

* `Settings.pieces_eq_error_iff`: which option is reported;
* `Settings.given_iff`: the last value given to a key counts;
* `Settings.resolve_exact`: what the sources resolve to.
-/

namespace EvmFlow.Settings

/-- A reserved word, or one with a value after an equals sign. -/
def IsReserved (text : String) : Prop :=
  ∃ word ∈ reservedWords, text = word ∨ ∃ value, text = word ++ ("=" ++ value)

/-- A position at which the arguments are looked at: the first one, and the one
    behind the arguments that are read together there. -/
inductive Stands (arguments : List String) : Nat → Prop
  | start : Stands arguments 0
  | behind {i : Nat} {group rest : List String} : Stands arguments i →
      arguments.drop i = group ++ rest → IsGroup group → Stands arguments (i + group.length)

/-- An option comes first and lacks its value: nothing stands behind the equals
    sign, or no argument behind the option, or one that starts with a dash. -/
inductive Lacks : List String → String → Prop
  | assignment {option : String} {key : Key} {rest : List String} :
      valueOptions.lookup option = some key → Lacks ((option ++ "=") :: rest) option
  | last {option : String} {key : Key} : valueOptions.lookup option = some key →
      Lacks [option] option
  | dash {option next : String} {key : Key} {rest : List String} :
      valueOptions.lookup option = some key → Text.startsWith '-' next = true →
      Lacks (option :: next :: rest) option

/-- What comes first gives a value to a key. -/
inductive Gives : List String → Key → String → Prop
  | flag {text : String} {key : Key} {rest : List String} : flags.lookup text = some key →
      Gives (text :: rest) key "true"
  | assignment {option value : String} {key : Key} {rest : List String} :
      valueOptions.lookup option = some key → value ≠ "" →
      Gives ((option ++ ("=" ++ value)) :: rest) key value
  | option {option value : String} {key : Key} {rest : List String} :
      valueOptions.lookup option = some key → Text.startsWith '-' value = false →
      Gives (option :: value :: rest) key value

/-- The option that is the first one to lack its value. -/
def FirstLacking (arguments : List String) (option : String) : Prop :=
  ∃ i, Stands arguments i ∧ Lacks (arguments.drop i) option ∧
    ∀ j < i, Stands arguments j → ∀ o, ¬Lacks (arguments.drop j) o

/-- No option lacks its value. -/
def IsComplete (arguments : List String) : Prop :=
  ∀ i, Stands arguments i → ∀ option, ¬Lacks (arguments.drop i) option

/-- The value that is the last one given to a key. -/
def LastGiven (arguments : List String) (key : Key) (value : String) : Prop :=
  ∃ i, Stands arguments i ∧ Gives (arguments.drop i) key value ∧
    ∀ j > i, Stands arguments j → ∀ v, ¬Gives (arguments.drop j) key v

/-- A key is given no value. -/
def IsUngiven (arguments : List String) (key : Key) : Prop :=
  ∀ i, Stands arguments i → ∀ value, ¬Gives (arguments.drop i) key value

/-- The environment variable of a key is not set, or blank. -/
def IsUnset (environment : String → Option String) (key : Key) : Prop :=
  ∀ value, environment key.variableName = some value → Text.isAllBlank value = true

/-- The raw value of a key. -/
inductive IsRaw (sources : Sources) (key : Key) : Json → Prop
  | argument {value : String} : LastGiven sources.arguments key value →
      IsRaw sources key (.str value)
  | environment {value : String} : IsUngiven sources.arguments key →
      sources.environment key.variableName = some value → Text.isAllBlank value = false →
      IsRaw sources key (.str value)
  | default {value : Json} : IsUngiven sources.arguments key → IsUnset sources.environment key →
      sources.defaults key = some value → IsRaw sources key value
  | builtIn : IsUngiven sources.arguments key → IsUnset sources.environment key →
      sources.defaults key = none → IsRaw sources key (.str key.default)

/-- No option lacks its value, and the raw values are those of the settings. -/
structure IsResolved (sources : Sources) (settings : Settings) : Prop where
  complete : IsComplete sources.arguments
  hardfork : IsRaw sources .hardfork (.str settings.hardfork.name)
  logLevel : IsRaw sources .logLevel (.str settings.logLevel.name)
  format : IsRaw sources .format (.str settings.format.name)
  strictEnd : IsRaw sources .strictEnd (.str (boolText settings.strictEnd))

variable {arguments group rest : List String} {text option value : String} {key : Key} {i : Nat}
  {given : List Piece} {sources : Sources}

/-- A reserved word is told by what stands before the equals sign, if there is
    one. -/
theorem isReserved_iff : IsReserved text ↔ (Text.cutAt '=' text).1 ∈ reservedWords := by
  cases hcut : Text.cutAt '=' text with
  | mk name value? =>
    constructor
    · rintro ⟨word, hword, rfl | ⟨value, rfl⟩⟩
      · obtain ⟨-, rfl⟩ | ⟨value, -, rfl⟩ := Text.cutAt_cases hcut
        · exact hword
        · exact absurd (by simp) (not_mem_of_reservedWord hword)
      · cases hcut.symm.trans (Text.cutAt_append (not_mem_of_reservedWord hword) value)
        exact hword
    · intro hword
      obtain ⟨-, rfl⟩ | ⟨value, -, rfl⟩ := Text.cutAt_cases hcut
      · exact ⟨_, hword, .inl rfl⟩
      · exact ⟨_, hword, .inr ⟨value, rfl⟩⟩

instance (text : String) : Decidable (IsReserved text) := decidable_of_iff' _ isReserved_iff

/-! ## Positions -/

namespace IsGroup

theorem length_pos (h : IsGroup group) : 0 < group.length := by
  cases h <;> exact Nat.succ_pos _

/-- The first arguments are read together in one way only. -/
theorem eq_of_append_eq {group' rest' : List String} (h : IsGroup group) (h' : IsGroup group')
    (heq : group ++ rest = group' ++ rest') : group = group' := by
  cases h with
  | pair hoption =>
    cases h' with
    | pair =>
      cases heq
      rfl
    | single hnone =>
      cases heq
      cases hoption.symm.trans hnone
  | single hnone =>
    cases h' with
    | pair hoption =>
      cases heq
      cases hnone.symm.trans hoption
    | single =>
      cases heq
      rfl

/-- Behind the first group, the positions are those of the rest. -/
theorem stands_append_iff (h : IsGroup group) :
    Stands (group ++ rest) i ↔ i = 0 ∨ ∃ j, Stands rest j ∧ i = group.length + j := by
  constructor
  · intro hi
    induction hi with
    | start => exact .inl rfl
    | @behind i group' rest' _ hdrop hgroup' ih =>
      rcases ih with rfl | ⟨j, hj, rfl⟩
      · rw [List.drop_zero] at hdrop
        exact .inr ⟨0, .start, by rw [h.eq_of_append_eq hgroup' hdrop, Nat.add_comm]⟩
      · rw [List.drop_length_add_append] at hdrop
        exact .inr ⟨_, hj.behind hdrop hgroup', Nat.add_assoc ..⟩
  · rintro (rfl | ⟨j, hj, rfl⟩)
    · exact .start
    · induction hj with
      | start =>
        have := Stands.start.behind (List.drop_zero (l := group ++ rest)) h
        rwa [Nat.add_comm] at this
      | behind _ hdrop hgroup' ih =>
        rw [← Nat.add_assoc]
        exact ih.behind ((List.drop_length_add_append _).trans hdrop) hgroup'

/-- What holds at every position holds of the whole and at every position of
    the rest. -/
theorem forall_stands_append_iff (h : IsGroup group) (P : List String → Prop) :
    (∀ i, Stands (group ++ rest) i → P ((group ++ rest).drop i)) ↔
      P (group ++ rest) ∧ ∀ i, Stands rest i → P (rest.drop i) := by
  constructor
  · intro hall
    refine ⟨hall 0 .start, fun i hi => ?_⟩
    have hbehind := hall _ (h.stands_append_iff.2 (.inr ⟨i, hi, rfl⟩))
    rwa [List.drop_length_add_append] at hbehind
  · rintro ⟨hfirst, hrest⟩ i hi
    rcases h.stands_append_iff.1 hi with rfl | ⟨j, hj, rfl⟩
    · exact hfirst
    · rw [List.drop_length_add_append]
      exact hrest j hj

theorem isComplete_append_iff (h : IsGroup group) : IsComplete (group ++ rest) ↔
    (∀ o, ¬Lacks (group ++ rest) o) ∧ IsComplete rest :=
  h.forall_stands_append_iff fun arguments => ∀ o, ¬Lacks arguments o

theorem isUngiven_append_iff (h : IsGroup group) : IsUngiven (group ++ rest) key ↔
    (∀ v, ¬Gives (group ++ rest) key v) ∧ IsUngiven rest key :=
  h.forall_stands_append_iff fun arguments => ∀ v, ¬Gives arguments key v

/-- The first option without a value comes first, or is the first one of the
    rest. -/
theorem firstLacking_append_iff (h : IsGroup group) : FirstLacking (group ++ rest) option ↔
    Lacks (group ++ rest) option ∨
      (∀ o, ¬Lacks (group ++ rest) o) ∧ FirstLacking rest option := by
  have hpos := h.length_pos
  constructor
  · rintro ⟨i, hi, hlacks, hfirst⟩
    rcases h.stands_append_iff.1 hi with rfl | ⟨j, hj, rfl⟩
    · exact .inl hlacks
    · rw [List.drop_length_add_append] at hlacks
      refine .inr ⟨hfirst 0 (by omega) .start, j, hj, hlacks, fun k hk hstands => ?_⟩
      have hbefore := hfirst _ (Nat.add_lt_add_left hk _)
        (h.stands_append_iff.2 (.inr ⟨k, hstands, rfl⟩))
      rwa [List.drop_length_add_append] at hbefore
  · rintro (hlacks | ⟨hnone, j, hj, hlacks, hfirst⟩)
    · exact ⟨0, .start, hlacks, fun j hj => absurd hj (Nat.not_lt_zero j)⟩
    · refine ⟨_, h.stands_append_iff.2 (.inr ⟨j, hj, rfl⟩), ?_, fun k hk hstands => ?_⟩
      · rwa [List.drop_length_add_append]
      · rcases h.stands_append_iff.1 hstands with rfl | ⟨l, hl, rfl⟩
        · exact hnone
        · rw [List.drop_length_add_append]
          exact hfirst l (Nat.lt_of_add_lt_add_left hk) hl

/-- The last value is the last one of the rest, or comes first and the rest
    gives none. -/
theorem lastGiven_append_iff (h : IsGroup group) : LastGiven (group ++ rest) key value ↔
    LastGiven rest key value ∨ IsUngiven rest key ∧ Gives (group ++ rest) key value := by
  have hpos := h.length_pos
  constructor
  · rintro ⟨i, hi, hgives, hlast⟩
    have hrest : ∀ j, i < group.length + j → Stands rest j → ∀ v, ¬Gives (rest.drop j) key v := by
      intro j hj hstands
      have hbehind := hlast _ hj (h.stands_append_iff.2 (.inr ⟨j, hstands, rfl⟩))
      rwa [List.drop_length_add_append] at hbehind
    rcases h.stands_append_iff.1 hi with rfl | ⟨j, hj, rfl⟩
    · exact .inr ⟨fun j => hrest j (by omega), hgives⟩
    · rw [List.drop_length_add_append] at hgives
      exact .inl ⟨j, hj, hgives, fun k hk => hrest k (by omega)⟩
  · rintro (⟨j, hj, hgives, hlast⟩ | ⟨hungiven, hgives⟩)
    · refine ⟨_, h.stands_append_iff.2 (.inr ⟨j, hj, rfl⟩), ?_, fun k hk hstands => ?_⟩
      · rwa [List.drop_length_add_append]
      · rcases h.stands_append_iff.1 hstands with rfl | ⟨l, hl, rfl⟩
        · exact absurd hk (Nat.not_lt_zero _)
        · rw [List.drop_length_add_append]
          exact hlast l (Nat.lt_of_add_lt_add_left hk) hl
    · refine ⟨0, .start, hgives, fun k hk hstands => ?_⟩
      rcases h.stands_append_iff.1 hstands with rfl | ⟨l, hl, rfl⟩
      · exact absurd hk (Nat.lt_irrefl 0)
      · rw [List.drop_length_add_append]
        exact hungiven l hl

end IsGroup

/-! ## What comes first -/

theorem lacks_of_option {next : String} (h : valueOptions.lookup text = some key) :
    Lacks (text :: next :: rest) option ↔ option = text ∧ Text.startsWith '-' next = true := by
  constructor
  · intro hlacks
    cases hlacks with
    | assignment => exact absurd (by simp) (not_mem_of_valueOption h)
    | dash _ hdash => exact ⟨rfl, hdash⟩
  · rintro ⟨rfl, hdash⟩
    exact .dash h hdash

theorem lacks_of_not_option (h : valueOptions.lookup text = none) :
    Lacks (text :: rest) option ↔
      text = option ++ ("=" ++ "") ∧ ∃ key, valueOptions.lookup option = some key := by
  rw [String.append_empty]
  constructor
  · intro hlacks
    cases hlacks with
    | assignment hoption => exact ⟨rfl, _, hoption⟩
    | last hoption => cases h.symm.trans hoption
    | dash hoption => cases h.symm.trans hoption
  · rintro ⟨rfl, key, hoption⟩
    exact .assignment hoption

theorem lookup_flags_of_option (h : valueOptions.lookup text = some key) :
    flags.lookup text = none := by
  have hall : ∀ o ∈ valueOptions, flags.lookup o.1 = none := by decide
  exact hall (text, key) (mem_of_lookup h)

theorem gives_of_option {next : String} {key' : Key} (h : valueOptions.lookup text = some key) :
    Gives (text :: next :: rest) key' value ↔
      Text.startsWith '-' next = false ∧ key = key' ∧ next = value := by
  constructor
  · intro hgives
    cases hgives with
    | flag hflag => cases (lookup_flags_of_option h).symm.trans hflag
    | assignment => exact absurd (by simp) (not_mem_of_valueOption h)
    | option hoption hdash => exact ⟨hdash, Option.some.inj (h.symm.trans hoption), rfl⟩
  · rintro ⟨hdash, rfl, rfl⟩
    exact .option h hdash

theorem gives_of_not_option (h : valueOptions.lookup text = none) :
    Gives (text :: rest) key value ↔
      (flags.lookup text = some key ∧ value = "true") ∨
        value ≠ "" ∧ ∃ option, valueOptions.lookup option = some key ∧
          text = option ++ ("=" ++ value) := by
  constructor
  · intro hgives
    cases hgives with
    | flag hflag => exact .inl ⟨hflag, rfl⟩
    | assignment hoption hvalue => exact .inr ⟨hvalue, _, hoption, rfl⟩
    | option hoption => cases h.symm.trans hoption
  · rintro (⟨hflag, rfl⟩ | ⟨hvalue, option, hoption, rfl⟩)
    · exact .flag hflag
    · exact .assignment hoption hvalue

/-- The first arguments that are read together lack a value, which is reported,
    or make up a piece that sets what they give. -/
inductive Begins (arguments rest : List String) : Prop
  | lacks {option : String} : (∀ o, Lacks arguments o ↔ o = option) →
      pieces arguments = .error ⟨option⟩ → Begins arguments rest
  | sets {p : Piece} : (∀ o, ¬Lacks arguments o) →
      (∀ key value, Gives arguments key value ↔ p.setting? = some (key, value)) →
      (pieces arguments = do return p :: (← pieces rest)) → Begins arguments rest

theorem begins_of_single (h : valueOptions.lookup text = none) (hreserved : ¬IsReserved text)
    (rest : List String) : Begins (text :: rest) rest := by
  have hpieces : pieces (text :: rest) = _ := pieces_cons_of_not_option h
  have his := Argument.is_ofText text
  generalize Argument.ofText text = argument at his hpieces
  cases his with
  | @flag key hflag =>
    have hequals : ∀ name value, text ≠ name ++ ("=" ++ value) := by
      rintro name value rfl
      cases (lookup_assignment (by decide)).symm.trans hflag
    refine .sets (p := .flag key) (fun o ho => ?_) (fun k v => ?_) hpieces
    · exact hequals o "" ((lacks_of_not_option h).1 ho).1
    · rw [gives_of_not_option h]
      constructor
      · rintro (⟨hkey, rfl⟩ | ⟨-, name, -, htext⟩)
        · rw [Option.some.inj (hkey.symm.trans hflag)]
          rfl
        · exact absurd htext (hequals name v)
      · intro hset
        cases hset
        exact .inl ⟨hflag, rfl⟩
  | option hoption => cases h.symm.trans hoption
  | @assignment name value key hname htext =>
    subst htext
    have hinj : ∀ {o v k}, valueOptions.lookup o = some k →
        name ++ ("=" ++ value) = o ++ ("=" ++ v) → name = o ∧ value = v := fun ho =>
      assignment_inj (not_mem_of_valueOption hname) (not_mem_of_valueOption ho)
    rw [Argument.piece] at hpieces
    by_cases hvalue : value = ""
    · rw [if_pos hvalue] at hpieces
      refine .lacks (fun o => ?_) hpieces
      rw [lacks_of_not_option h]
      constructor
      · rintro ⟨heq, k, ho⟩
        exact (hinj ho heq).1.symm
      · rintro rfl
        exact ⟨by rw [hvalue], key, hname⟩
    · rw [if_neg hvalue] at hpieces
      refine .sets (p := .assignment key value) (fun o ho => ?_) (fun k v => ?_) hpieces
      · obtain ⟨heq, k, ho⟩ := (lacks_of_not_option h).1 ho
        exact hvalue (hinj ho heq).2
      · rw [gives_of_not_option h]
        constructor
        · rintro (⟨hflag, -⟩ | ⟨-, o, ho, heq⟩)
          · cases (lookup_assignment (by decide)).symm.trans hflag
          · obtain ⟨rfl, rfl⟩ := hinj ho heq
            rw [Option.some.inj (ho.symm.trans hname)]
            rfl
        · intro hset
          cases hset
          exact .inr ⟨hvalue, name, hname, rfl⟩
  | reserved _ hword htext => exact absurd ⟨_, hword, .inr ⟨_, htext⟩⟩ hreserved
  | other hconfigures =>
    refine .sets (p := .passedOver) (fun o ho => ?_) (fun k v => ?_) hpieces
    · obtain ⟨heq, k, ho⟩ := (lacks_of_not_option h).1 ho
      exact hconfigures (.inr (.inr ⟨o, k, "", ho, heq⟩))
    · rw [gives_of_not_option h]
      refine iff_of_false ?_ (Option.some_ne_none (k, v)).symm
      rintro (⟨hflag, -⟩ | ⟨-, o, ho, heq⟩)
      · exact hconfigures (.inl ⟨k, hflag⟩)
      · exact hconfigures (.inr (.inr ⟨o, k, v, ho, heq⟩))

theorem begins_of_pair (h : valueOptions.lookup text = some key) (next : String)
    (rest : List String) : Begins (text :: next :: rest) rest := by
  have hpieces : pieces (text :: next :: rest) = _ := pieces_cons_of_option h next
  cases hdash : Text.startsWith '-' next with
  | true =>
    rw [if_pos hdash] at hpieces
    refine .lacks (fun o => ?_) hpieces
    rw [lacks_of_option h, and_iff_left hdash]
  | false =>
    rw [if_neg (by rw [hdash]; exact Bool.false_ne_true)] at hpieces
    refine .sets (p := .option key next) (fun o ho => ?_) (fun k v => ?_) hpieces
    · cases hdash.symm.trans ((lacks_of_option h).1 ho).2
    · rw [gives_of_option h, and_iff_right hdash, Piece.setting?, Option.some.injEq, Prod.mk.injEq]

theorem IsGroup.begins (h : IsGroup group) (hreserved : ∀ text ∈ group, ¬IsReserved text)
    (rest : List String) : Begins (group ++ rest) rest := by
  cases h with
  | pair hoption => exact begins_of_pair hoption _ rest
  | single hnone => exact begins_of_single hnone (hreserved _ (List.mem_singleton_self _)) rest

/-! ## The whole command line -/

theorem not_lacks_nil : ¬Lacks [] option := fun h => by cases h

theorem not_gives_nil : ¬Gives [] key value := fun h => by cases h

/-- An option that is the last argument is the only position. -/
theorem stands_singleton (h : valueOptions.lookup text = some key) (hi : Stands [text] i) :
    i = 0 := by
  induction hi with
  | start => rfl
  | behind _ hdrop hgroup ih =>
    rw [ih, List.drop_zero] at hdrop
    cases hgroup with
    | pair => cases hdrop
    | single hnone =>
      cases hdrop
      cases h.symm.trans hnone

theorem firstLacking_singleton (h : valueOptions.lookup text = some key) :
    FirstLacking [text] option ↔ option = text := by
  constructor
  · rintro ⟨i, hi, hlacks, -⟩
    rw [stands_singleton h hi, List.drop_zero] at hlacks
    cases hlacks with
    | assignment => exact absurd (by simp) (not_mem_of_valueOption h)
    | last => rfl
  · rintro rfl
    exact ⟨0, .start, .last h, fun j hj => absurd hj (Nat.not_lt_zero j)⟩

/-- The first option that lacks its value is reported. -/
theorem pieces_eq_error_iff (hreserved : ∀ text ∈ arguments, ¬IsReserved text) :
    pieces arguments = .error ⟨option⟩ ↔ FirstLacking arguments option := by
  induction arguments using groupInduction with
  | nil =>
    refine iff_of_false (fun h => by cases h) ?_
    rintro ⟨i, -, hlacks, -⟩
    rw [List.drop_nil] at hlacks
    exact not_lacks_nil hlacks
  | last text key hoption =>
    rw [pieces_singleton_of_option hoption, firstLacking_singleton hoption, Except.error.injEq,
      MissingValue.mk.injEq, eq_comm]
  | append group rest hgroup ih =>
    rw [List.forall_mem_append] at hreserved
    rw [hgroup.firstLacking_append_iff]
    cases hgroup.begins hreserved.1 rest with
    | lacks hlacks hpieces =>
      -- the option is found here, so the rest does not matter
      rw [hpieces, Except.error.injEq, MissingValue.mk.injEq, hlacks, eq_comm]
      exact (or_iff_left fun hrest => hrest.1 _ ((hlacks _).2 rfl)).symm
    | sets hlacks _ hpieces =>
      rw [hpieces, cons_eq_error_iff, ih hreserved.2, or_iff_right (hlacks option)]
      exact (and_iff_right hlacks).symm

/-- If no option lacks its value, the command line can be read. -/
theorem isComplete_iff (hreserved : ∀ text ∈ arguments, ¬IsReserved text) :
    IsComplete arguments ↔ ∃ given, pieces arguments = .ok given := by
  induction arguments using groupInduction with
  | nil =>
    refine iff_of_true (fun i _ option hlacks => ?_) ⟨[], rfl⟩
    rw [List.drop_nil] at hlacks
    exact not_lacks_nil hlacks
  | last text key hoption =>
    rw [pieces_singleton_of_option hoption]
    exact iff_of_false (fun h => h 0 .start text (.last hoption)) fun ⟨given, h⟩ => by cases h
  | append group rest hgroup ih =>
    rw [List.forall_mem_append] at hreserved
    rw [hgroup.isComplete_append_iff]
    cases hgroup.begins hreserved.1 rest with
    | lacks hlacks hpieces =>
      rw [hpieces]
      exact iff_of_false (fun h => h.1 _ ((hlacks _).2 rfl)) fun ⟨given, h⟩ => by cases h
    | sets hlacks _ hpieces =>
      rw [hpieces, and_iff_right hlacks, ih hreserved.2]
      constructor
      · rintro ⟨given, hgiven⟩
        exact ⟨_, by rw [hgiven]; rfl⟩
      · rintro ⟨given, hgiven⟩
        obtain ⟨given', hrest, -⟩ := of_cons_eq_ok hgiven
        exact ⟨given', hrest⟩

theorem lookup_toList {setting? : Option (Key × String)} :
    setting?.toList.lookup key = some value ↔ setting? = some (key, value) := by
  cases setting? with
  | none => exact iff_of_false (Option.some_ne_none value).symm (Option.some_ne_none _).symm
  | some setting =>
    obtain ⟨key', value'⟩ := setting
    rw [Option.toList_some, List.lookup_cons, Option.some.injEq, Prod.mk.injEq]
    by_cases hkey : key = key'
    · subst hkey
      simp
    · rw [beq_eq_false_iff_ne.2 hkey]
      exact iff_of_false (Option.some_ne_none value).symm fun h => hkey h.1.symm

/-- The value of a key is the last one, which is that of the first piece if no
    other gives one. -/
theorem assigned?_cons (p : Piece) (given : List Piece) (key : Key) :
    assigned? (p :: given) key = (assigned? given key).or (p.setting?.toList.lookup key) := by
  have hset : (p :: given).filterMap Piece.setting? =
      p.setting?.toList ++ given.filterMap Piece.setting? := by
    rw [List.filterMap_cons]
    cases p.setting? <;> rfl
  have hreverse : p.setting?.toList.reverse = p.setting?.toList := by cases p.setting? <;> rfl
  rw [assigned?, assigned?, hset, List.reverse_append, List.lookup_append, hreverse]

/-- What a command line gives to a key is what is read, and nothing is read if
    it gives nothing. -/
theorem given_iff (hreserved : ∀ text ∈ arguments, ¬IsReserved text)
    (hgiven : pieces arguments = .ok given) (key : Key) :
    (∀ value, LastGiven arguments key value ↔ assigned? given key = some value) ∧
      (IsUngiven arguments key ↔ assigned? given key = none) := by
  induction arguments using groupInduction generalizing given with
  | nil =>
    cases hgiven
    refine ⟨fun value => iff_of_false ?_ (Option.some_ne_none value).symm, iff_of_true ?_ rfl⟩
    · rintro ⟨i, -, hgives, -⟩
      rw [List.drop_nil] at hgives
      exact not_gives_nil hgives
    · intro i _ value hgives
      rw [List.drop_nil] at hgives
      exact not_gives_nil hgives
  | last text key hoption =>
    rw [pieces_singleton_of_option hoption] at hgiven
    cases hgiven
  | append group rest hgroup ih =>
    rw [List.forall_mem_append] at hreserved
    cases hgroup.begins hreserved.1 rest with
    | lacks _ hpieces =>
      rw [hpieces] at hgiven
      cases hgiven
    | @sets p _ hgives hpieces =>
      rw [hpieces] at hgiven
      obtain ⟨given', hrest, rfl⟩ := of_cons_eq_ok hgiven
      obtain ⟨hlast, hungiven⟩ := ih hreserved.2 hrest
      refine ⟨fun value => ?_, ?_⟩
      · rw [hgroup.lastGiven_append_iff, hlast, hungiven, hgives, assigned?_cons,
          Option.or_eq_some_iff, lookup_toList]
      · rw [hgroup.isUngiven_append_iff, hungiven, assigned?_cons, Option.or_eq_none_iff, and_comm]
        refine and_congr_right fun _ => ?_
        simp only [hgives, ← lookup_toList, Option.eq_none_iff_forall_ne_some, ne_eq]

/-! ## Raw values -/

theorem environmentValue?_eq_some_iff {environment : String → Option String} :
    environmentValue? environment key = some value ↔
      environment key.variableName = some value ∧ Text.isAllBlank value = false := by
  rw [environmentValue?, Option.filter_eq_some_iff, Bool.not_eq_true']

theorem environmentValue?_eq_none_iff {environment : String → Option String} :
    environmentValue? environment key = none ↔ IsUnset environment key := by
  rw [environmentValue?, Option.filter_eq_none_iff]
  simp only [IsUnset, Bool.not_eq_true', Bool.not_eq_false]

/-- A key has one raw value, if the command line can be read. -/
theorem isRaw_iff (hreserved : ∀ text ∈ sources.arguments, ¬IsReserved text)
    (hgiven : pieces sources.arguments = .ok given) {value : Json} :
    IsRaw sources key value ↔ raw sources given key = value := by
  obtain ⟨hlast, hungiven⟩ := given_iff hreserved hgiven key
  constructor
  · intro h
    cases h with
    | argument h => simp only [raw, (hlast _).1 h]
    | environment h hvalue hblank =>
      simp only [raw, hungiven.1 h, environmentValue?_eq_some_iff.2 ⟨hvalue, hblank⟩]
    | default h hunset hdefault =>
      simp only [raw, hungiven.1 h, environmentValue?_eq_none_iff.2 hunset, hdefault, Option.getD_some]
    | builtIn h hunset hdefault =>
      simp only [raw, hungiven.1 h, environmentValue?_eq_none_iff.2 hunset, hdefault, Option.getD_none]
  · rintro rfl
    rw [raw]
    split
    · next value hvalue => exact .argument ((hlast value).2 hvalue)
    · next hnone =>
      split
      · next value hvalue =>
        obtain ⟨hset, hblank⟩ := environmentValue?_eq_some_iff.1 hvalue
        exact .environment (hungiven.2 hnone) hset hblank
      · next hunset =>
        have hunset := environmentValue?_eq_none_iff.1 hunset
        cases hdefault : sources.defaults key with
        | none => exact .builtIn (hungiven.2 hnone) hunset hdefault
        | some value => exact .default (hungiven.2 hnone) hunset hdefault

/-! ## Known names -/

/-- A raw value is read as what it names. -/
theorem bind_text?_eq_some_iff {α : Type} {ofName? : String → Option α} {name : α → String}
    (h : ∀ {text a}, ofName? text = some a ↔ text = name a) {value : Json} {a : α} :
    value.text?.bind ofName? = some a ↔ value = .str (name a) := by
  simp only [Option.bind_eq_some_iff, Json.text?_eq_some_iff, h]
  exact ⟨fun ⟨_, hvalue, htext⟩ => htext ▸ hvalue, fun hvalue => ⟨_, hvalue, rfl⟩⟩

theorem decode_eq_some_iff {raw : Key → Json} {settings : Settings} :
    decode raw = some settings ↔ raw .hardfork = .str settings.hardfork.name ∧
      raw .logLevel = .str settings.logLevel.name ∧ raw .format = .str settings.format.name ∧
      raw .strictEnd = .str (boolText settings.strictEnd) := by
  have hhardfork {h} : (raw .hardfork).text?.bind Hardfork.ofName? = some h ↔
      raw .hardfork = .str h.name := bind_text?_eq_some_iff Hardfork.ofName?_eq_some_iff
  have hlogLevel {l} : (raw .logLevel).text?.bind Log.Level.ofName? = some l ↔
      raw .logLevel = .str l.name := bind_text?_eq_some_iff Log.Level.ofName?_eq_some_iff
  have hformat {f} : (raw .format).text?.bind Format.ofName? = some f ↔
      raw .format = .str f.name := bind_text?_eq_some_iff Format.ofName?_eq_some_iff
  have hstrictEnd {b} : (raw .strictEnd).text?.bind boolOfText? = some b ↔
      raw .strictEnd = .str (boolText b) := bind_text?_eq_some_iff boolOfText?_eq_some_iff
  have hdecode : decode raw =
      ((raw .hardfork).text?.bind Hardfork.ofName?).bind fun hardfork =>
      ((raw .logLevel).text?.bind Log.Level.ofName?).bind fun logLevel =>
      ((raw .format).text?.bind Format.ofName?).bind fun format =>
      ((raw .strictEnd).text?.bind boolOfText?).bind fun strictEnd =>
      some { hardfork, logLevel, format, strictEnd } := by
    simp only [decode, Option.bind_assoc, Option.bind_eq_bind, Option.pure_def]
  rw [hdecode]
  simp only [Option.bind_eq_some_iff, hhardfork, hlogLevel, hformat, hstrictEnd, Option.some.injEq]
  constructor
  · rintro ⟨_, hh, _, hl, _, hf, _, hs, rfl⟩
    exact ⟨hh, hl, hf, hs⟩
  · rintro ⟨hh, hl, hf, hs⟩
    exact ⟨_, hh, _, hl, _, hf, _, hs, rfl⟩

/-! ## What the sources resolve to -/

theorem isResolved_iff (hreserved : ∀ text ∈ sources.arguments, ¬IsReserved text)
    (hgiven : pieces sources.arguments = .ok given) {settings : Settings} :
    IsResolved sources settings ↔ decode (raw sources given) = some settings := by
  have hraw {key : Key} {value : Json} : IsRaw sources key value ↔ raw sources given key = value :=
    isRaw_iff hreserved hgiven
  rw [decode_eq_some_iff]
  constructor
  · rintro ⟨-, hh, hl, hf, hs⟩
    exact ⟨hraw.1 hh, hraw.1 hl, hraw.1 hf, hraw.1 hs⟩
  · rintro ⟨hh, hl, hf, hs⟩
    exact ⟨(isComplete_iff hreserved).2 ⟨given, hgiven⟩, hraw.2 hh, hraw.2 hl, hraw.2 hf, hraw.2 hs⟩

/-- What the sources resolve to, if no argument is a reserved word. An option
    that lacks its value is reported, the first one if there are several,
    whatever the environment and the defaults are. Otherwise each key has one
    raw value, and the settings are those of the raw values, if these are all
    known. -/
theorem resolve_exact (hreserved : ∀ text ∈ sources.arguments, ¬IsReserved text) :
    ((∃ option, resolve sources = .error (.missingValue option)) ↔
      ¬IsComplete sources.arguments) ∧
    (∀ option, resolve sources = .error (.missingValue option) ↔
      FirstLacking sources.arguments option) ∧
    (IsComplete sources.arguments →
      ∃ raw : Key → Json, ∀ key value, IsRaw sources key value ↔ value = raw key) ∧
    (∀ settings, resolve sources = .ok settings ↔ IsResolved sources settings) ∧
    (resolve sources = .error .invalid ↔
      IsComplete sources.arguments ∧ ∀ settings, ¬IsResolved sources settings) := by
  cases hpieces : pieces sources.arguments with
  | error e =>
    have hresolve : resolve sources = .error (.missingValue e.option) := by rw [resolve, hpieces]
    have hincomplete : ¬IsComplete sources.arguments := by
      rw [isComplete_iff hreserved, hpieces]
      rintro ⟨given, hgiven⟩
      cases hgiven
    rw [hresolve]
    refine ⟨iff_of_true ⟨_, rfl⟩ hincomplete, fun option => ?_, fun h => absurd h hincomplete,
      fun settings => iff_of_false (fun h => by cases h) fun h => hincomplete h.complete,
      iff_of_false (fun h => by cases h) fun h => hincomplete h.1⟩
    rw [← pieces_eq_error_iff hreserved, hpieces, Except.error.injEq, Except.error.injEq,
      Failure.missingValue.injEq, ← MissingValue.mk.injEq]
  | ok given =>
    have hcomplete : IsComplete sources.arguments := (isComplete_iff hreserved).2 ⟨given, hpieces⟩
    have hresolved {settings} : IsResolved sources settings ↔
        decode (raw sources given) = some settings := isResolved_iff hreserved hpieces
    have hread : ∀ option, resolve sources ≠ .error (.missingValue option) := by
      intro option h
      simp only [resolve, hpieces] at h
      split at h <;> cases h
    refine ⟨iff_of_false (fun ⟨option, h⟩ => hread option h) fun h => h hcomplete,
      fun option => iff_of_false (hread option) ?_,
      fun _ => ⟨raw sources given, fun key value => by rw [isRaw_iff hreserved hpieces, eq_comm]⟩, ?_⟩
    · rw [← pieces_eq_error_iff hreserved, hpieces]
      exact fun h => by cases h
    · simp only [hresolved, resolve, hpieces, and_iff_right hcomplete]
      cases decode (raw sources given) with
      | none => simp
      | some settings => simp

/-- Two options that set the same key, in different spellings, and a short one.
    The log level and the strictness have a default, and are both set in the
    environment, the log level with a blank value. -/
def layeredSources : Sources where
  arguments := ["--fork", "berlin", "-f", "json", "0x00", "--hardfork=london"]
  environment name :=
    if name = Key.logLevel.variableName then some " \t"
    else if name = Key.strictEnd.variableName then some "true" else none
  defaults
    | .logLevel => some (.str "error")
    | .strictEnd => some (.str "false")
    | _ => none

/-- The same, with two options that lack a value. -/
def lackingSources : Sources :=
  { layeredSources with arguments := ["--format", "text", "--fork", "-f", "--log-level="] }

/-- The later hardfork counts. So does the environment before the default, but
    for a blank value, in whose place the default counts. If values are lacking,
    the first option is reported, which is not the first argument. -/
theorem resolve_layeredSources :
    (∀ text ∈ layeredSources.arguments, ¬IsReserved text) ∧
    IsResolved layeredSources ⟨.london, .error, .json, true⟩ ∧
    (∀ text ∈ lackingSources.arguments, ¬IsReserved text) ∧
    FirstLacking lackingSources.arguments "--fork" := by
  have hreserved : ∀ text ∈ layeredSources.arguments, ¬IsReserved text := by decide +kernel
  have hreserved' : ∀ text ∈ lackingSources.arguments, ¬IsReserved text := by decide +kernel
  have hresolve : resolve layeredSources = .ok ⟨.london, .error, .json, true⟩ := by decide +kernel
  have hresolve' : resolve lackingSources = .error (.missingValue "--fork") := by decide +kernel
  exact ⟨hreserved, ((resolve_exact hreserved).2.2.2.1 _).1 hresolve, hreserved',
    ((resolve_exact hreserved').2.1 _).1 hresolve'⟩

end EvmFlow.Settings
