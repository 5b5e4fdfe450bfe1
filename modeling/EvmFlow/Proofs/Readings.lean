import EvmFlow.Proofs.Arguments

/-!
# Two readings of the command line

The settings and the search for code read the same arguments, each in its own
way: the settings do not know the file options, and the search for code does
not know what the value of an option may be. If both can read a command line,
they still agree on which arguments belong together (`Command.Together`): what
one of them reads as two arguments, the other reads as two arguments or one by
one, so neither ever falls behind.

* `Command.readings_agree`: the arguments that the settings take as values of
  options are those that the search for code skips, and the code is none of
  them.
-/

namespace EvmFlow

/-- The positions at which pieces of given widths hold something, where
    `offset?` says how far it is from the start of a piece. -/
def positions {α : Type} (width : α → Nat) (offset? : α → Option Nat) :
    (start : Nat) → (pieces : List α) → List Nat
  | _, [] => []
  | start, piece :: pieces =>
    (offset? piece).toList.map (start + ·) ++
      positions width offset? (start + width piece) pieces

namespace Settings

/-- Where a piece holds the value of an option in an argument of its own. -/
def Piece.valueOffset? : Piece → Option Nat
  | option .. => some 1
  | flag _ | assignment .. | passedOver => none

/-- Where a piece holds what it sets, be it in an argument of its own or not. -/
def Piece.settingOffset? : Piece → Option Nat
  | option .. => some 1
  | flag _ | assignment .. => some 0
  | passedOver => none

/-- The value of the option in a piece of two arguments. -/
def Piece.value? : Piece → Option String
  | option _ value => some value
  | flag _ | assignment .. | passedOver => none

/-- The positions of the arguments that are the values of options. -/
def valuePositions (given : List Piece) : List Nat :=
  positions Piece.width Piece.valueOffset? 0 given

/-- The positions of the arguments that set something. -/
def settingPositions (given : List Piece) : List Nat :=
  positions Piece.width Piece.settingOffset? 0 given

end Settings

namespace Command

/-- The argument in which a source is given. -/
def Source.text : Source → String
  | hex text => text
  | file path => path

/-- Where a piece skips the argument behind an option. -/
def Piece.skippedOffset? : Piece → Option Nat
  | setting => some 1
  | file _ | hex _ | passedOver => none

/-- Where a piece gives code. -/
def Piece.sourceOffset? : Piece → Option Nat
  | file _ => some 1
  | hex _ => some 0
  | setting | passedOver => none

/-- The positions of the arguments that are skipped behind an option. -/
def skippedPositions (found : List Piece) : List Nat :=
  positions Piece.width Piece.skippedOffset? 0 found

/-- The positions of the arguments that give code. -/
def sourcePositions (found : List Piece) : List Nat :=
  positions Piece.width Piece.sourceOffset? 0 found

/-- Both readings of a command line, side by side. -/
inductive Together : List String → List Settings.Piece → List Piece → Prop
  | nil : Together [] [] []
  /-- An option and its value. -/
  | option {text value : String} {key : Settings.Key} {rest : List String}
      {given : List Settings.Piece} {found : List Piece} : Together rest given found →
      Together (text :: value :: rest) (.option key value :: given) (.setting :: found)
  /-- A file option and its path, which the settings pass over one by one. -/
  | file {text path : String} {rest : List String} {given : List Settings.Piece}
      {found : List Piece} : Together rest given found →
      Together (text :: path :: rest) (.passedOver :: .passedOver :: given) (.file path :: found)
  /-- Code in place, which the settings pass over. -/
  | hex {text : String} {rest : List String} {given : List Settings.Piece} {found : List Piece} :
      Together rest given found →
      Together (text :: rest) (.passedOver :: given) (.hex text :: found)
  /-- An argument that is no code, and may set something. -/
  | passedOver {text : String} {piece : Settings.Piece} {rest : List String}
      {given : List Settings.Piece} {found : List Piece} : piece.width = 1 →
      Together rest given found →
      Together (text :: rest) (piece :: given) (.passedOver :: found)

variable {arguments : List String} {given : List Settings.Piece} {found : List Piece}

/-! ## Side by side -/

theorem piece_of_file {text : String} {p : Settings.Piece} (h : fileOptions.contains text = true)
    (hp : (Settings.Argument.ofText text).piece = .ok p) : p = .passedOver := by
  have hall : ∀ o ∈ fileOptions, Settings.Argument.ofText o = .other := by decide
  rw [hall text (List.contains_iff_mem.1 h)] at hp
  cases hp
  rfl

/-- If both can read a command line, they read it side by side. -/
theorem together_of_pieces (hgiven : Settings.pieces arguments = .ok given)
    (hfound : pieces arguments = .ok found) : Together arguments given found := by
  induction arguments using pieces.induct generalizing given found with
  | case1 =>
    rw [Settings.pieces] at hgiven
    rw [pieces] at hfound
    cases hgiven
    cases hfound
    exact .nil
  | case2 text hfile =>
    rw [pieces_singleton_of_file hfile] at hfound
    cases hfound
  | case3 text hfile path rest hdash =>
    rw [pieces_cons_of_file hfile, if_pos hdash] at hfound
    cases hfound
  | case4 text hfile path rest hdash ih =>
    -- the settings know neither the file option nor, without a dash, the path
    rw [pieces_cons_of_file hfile, if_neg hdash] at hfound
    obtain ⟨found', hrest, rfl⟩ := of_cons_eq_ok hfound
    have hpath : Text.startsWith '-' path = false := Bool.eq_false_iff.2 hdash
    obtain ⟨p, behind, hp, hbehind, rfl⟩ := Settings.of_pieces_cons
      (not_isValueOption_iff.1 (not_isValueOption_of_file hfile)) hgiven
    obtain ⟨q, given', hq, hrest', rfl⟩ := Settings.of_pieces_cons
      (Settings.lookup_of_not_dash hpath) hbehind
    rw [piece_of_file hfile hp, Settings.Argument.piece_of_not_dash hpath hq]
    exact .file (ih hrest' hrest)
  | case5 text _ hoption =>
    -- an option at the end has no value for the settings
    obtain ⟨key, hkey⟩ := isValueOption_iff.1 hoption
    rw [Settings.pieces_singleton_of_option hkey] at hgiven
    cases hgiven
  | case6 text _ hoption value rest ih =>
    obtain ⟨key, hkey⟩ := isValueOption_iff.1 hoption
    rw [pieces_cons_of_option hoption] at hfound
    obtain ⟨found', hrest, rfl⟩ := of_cons_eq_ok hfound
    rw [Settings.pieces_cons_of_option hkey] at hgiven
    split at hgiven
    · cases hgiven
    · obtain ⟨given', hrest', rfl⟩ := of_cons_eq_ok hgiven
      exact .option (ih hrest' hrest)
  | case7 text rest hfile hoption hdash ih =>
    rw [pieces_cons_of_neither hfile hoption, if_pos hdash] at hfound
    obtain ⟨found', hrest, rfl⟩ := of_cons_eq_ok hfound
    obtain ⟨p, given', hp, hrest', rfl⟩ := Settings.of_pieces_cons
      (not_isValueOption_iff.1 hoption) hgiven
    exact .passedOver (Settings.Argument.width_of_piece hp) (ih hrest' hrest)
  | case8 text rest hfile hoption hdash ih =>
    rw [pieces_cons_of_neither hfile hoption, if_neg hdash] at hfound
    obtain ⟨found', hrest, rfl⟩ := of_cons_eq_ok hfound
    obtain ⟨p, given', hp, hrest', rfl⟩ := Settings.of_pieces_cons
      (not_isValueOption_iff.1 hoption) hgiven
    rw [Settings.Argument.piece_of_not_dash (Bool.eq_false_iff.2 hdash) hp]
    exact .hex (ih hrest' hrest)

/-! ## Positions -/

section Positions

variable {α : Type} {width : α → Nat} {offset? : α → Option Nat} {start k : Nat} {piece : α}
  {pieces : List α}

theorem positions_cons_of_none (h : offset? piece = none) :
    positions width offset? start (piece :: pieces) =
      positions width offset? (start + width piece) pieces := by
  rw [positions, h]
  rfl

theorem le_of_mem_positions (h : k ∈ positions width offset? start pieces) : start ≤ k := by
  induction pieces generalizing start with
  | nil => cases h
  | cons piece pieces ih =>
    rw [positions, List.mem_append] at h
    rcases h with h | h
    · obtain ⟨offset, -, rfl⟩ := List.mem_map.1 h
      exact Nat.le_add_right start offset
    · exact Nat.le_trans (Nat.le_add_right _ _) (ih h)

theorem mem_positions_mono {offset'? : α → Option Nat}
    (hoffset : ∀ piece offset, offset? piece = some offset → offset'? piece = some offset)
    (h : k ∈ positions width offset? start pieces) : k ∈ positions width offset'? start pieces := by
  induction pieces generalizing start with
  | nil => cases h
  | cons piece pieces ih =>
    rw [positions, List.mem_append] at h ⊢
    rcases h with h | h
    · obtain ⟨offset, hmem, rfl⟩ := List.mem_map.1 h
      have hsome := hoffset piece offset (Option.mem_toList.1 hmem)
      exact .inl (List.mem_map.2 ⟨offset, Option.mem_toList.2 hsome, rfl⟩)
    · exact .inr (ih h)

end Positions

theorem valueOffset?_of_width {piece : Settings.Piece} (h : piece.width = 1) :
    piece.valueOffset? = none := by
  cases piece with
  | option => cases h
  | _ => rfl

theorem value?_of_width {piece : Settings.Piece} (h : piece.width = 1) : piece.value? = none := by
  cases piece with
  | option => cases h
  | _ => rfl

theorem settingOffset?_of_width {piece : Settings.Piece} {offset : Nat} (h : piece.width = 1)
    (hoffset : piece.settingOffset? = some offset) : offset = 0 := by
  cases piece with
  | option => cases h
  | passedOver => cases hoffset
  | _ => exact (Option.some.inj hoffset).symm

namespace Together

/-- The values of options are the arguments that are skipped. -/
theorem positions_eq (h : Together arguments given found) (start : Nat) :
    positions Settings.Piece.width Settings.Piece.valueOffset? start given =
      positions Piece.width Piece.skippedOffset? start found := by
  induction h generalizing start with
  | nil => rfl
  | option _ ih => exact congrArg _ (ih _)
  | file _ ih => exact ih _
  | hex _ ih => exact ih _
  | passedOver hwidth _ ih =>
    rw [positions_cons_of_none (valueOffset?_of_width hwidth), hwidth]
    exact ih _

/-- No argument gives code and sets something. -/
theorem not_mem_of_source (h : Together arguments given found) (start : Nat) {k : Nat}
    (hk : k ∈ positions Piece.width Piece.sourceOffset? start found) :
    k ∉ positions Settings.Piece.width Settings.Piece.settingOffset? start given := by
  intro hk'
  induction h generalizing start with
  | nil => cases hk
  | option _ ih =>
    -- all that comes later stands behind the value
    rcases List.mem_cons.1 hk' with rfl | hk'
    · exact Nat.not_succ_le_self _ (le_of_mem_positions hk)
    · exact ih _ hk hk'
  | file _ ih =>
    rcases List.mem_cons.1 hk with rfl | hk
    · exact Nat.not_succ_le_self _ (le_of_mem_positions hk')
    · exact ih _ hk hk'
  | hex _ ih =>
    rcases List.mem_cons.1 hk with rfl | hk
    · exact Nat.not_succ_le_self _ (le_of_mem_positions hk')
    · exact ih _ hk hk'
  | @passedOver _ piece _ _ _ hwidth _ ih =>
    rw [positions, List.mem_append, hwidth] at hk'
    rcases hk' with hk' | hk'
    · obtain ⟨offset, hoffset, rfl⟩ := List.mem_map.1 hk'
      rw [settingOffset?_of_width hwidth (Option.mem_toList.1 hoffset)] at hk
      exact Nat.not_succ_le_self _ (le_of_mem_positions hk)
    · exact ih _ hk hk'

theorem getElem?_append_add (before behind : List String) (k : Nat) :
    (before ++ behind)[before.length + k]? = behind[k]? := by
  rw [List.getElem?_append_right (Nat.le_add_right _ _), Nat.add_sub_cancel_left]

/-- At the positions of values stand the values that are taken. -/
theorem getElem?_values (h : Together arguments given found) (before : List String) :
    (positions Settings.Piece.width Settings.Piece.valueOffset? before.length given).map
        ((before ++ arguments)[·]?) =
      (given.filterMap Settings.Piece.value?).map some := by
  -- what was read comes before what is left
  induction h generalizing before with
  | nil => rfl
  | @option text value _ rest _ _ _ ih =>
    have hrest := ih (before ++ [text, value])
    rw [List.length_append, List.append_assoc] at hrest
    exact congrArg₂ List.cons (getElem?_append_add before (text :: value :: rest) 1) hrest
  | @file text path _ _ _ _ ih =>
    have hrest := ih (before ++ [text, path])
    rwa [List.length_append, List.append_assoc] at hrest
  | @hex text _ _ _ _ ih =>
    have hrest := ih (before ++ [text])
    rwa [List.length_append, List.append_assoc] at hrest
  | @passedOver text piece _ _ _ hwidth _ ih =>
    have hrest := ih (before ++ [text])
    rw [List.length_append, List.append_assoc] at hrest
    rw [positions_cons_of_none (valueOffset?_of_width hwidth), hwidth,
      List.filterMap_cons_none (value?_of_width hwidth)]
    exact hrest

/-- At the positions that give code stands what is given. -/
theorem getElem?_sources (h : Together arguments given found) (before : List String) :
    (positions Piece.width Piece.sourceOffset? before.length found).map
        ((before ++ arguments)[·]?) =
      (found.filterMap Piece.source?).map fun source => some source.text := by
  induction h generalizing before with
  | nil => rfl
  | @option text value _ _ _ _ _ ih =>
    have hrest := ih (before ++ [text, value])
    rwa [List.length_append, List.append_assoc] at hrest
  | @file text path rest _ _ _ ih =>
    have hrest := ih (before ++ [text, path])
    rw [List.length_append, List.append_assoc] at hrest
    exact congrArg₂ List.cons (getElem?_append_add before (text :: path :: rest) 1) hrest
  | @hex text rest _ _ _ ih =>
    have hrest := ih (before ++ [text])
    rw [List.length_append, List.append_assoc] at hrest
    exact congrArg₂ List.cons (getElem?_append_add before (text :: rest) 0) hrest
  | @passedOver text _ _ _ _ _ _ ih =>
    have hrest := ih (before ++ [text])
    rwa [List.length_append, List.append_assoc] at hrest

end Together

theorem settingOffset?_of_valueOffset? (piece : Settings.Piece) (offset : Nat)
    (h : piece.valueOffset? = some offset) : piece.settingOffset? = some offset := by
  cases piece with
  | option => exact h
  | _ => cases h

/-- If the settings and the search for code can both read a command line, the
    arguments that the one takes as values of options are those that the other
    skips behind options. The code is given by one argument, which is none of
    these and sets nothing. -/
theorem readings_agree {source : Source} (hgiven : Settings.pieces arguments = .ok given)
    (hsource : Command.source arguments = .ok source) :
    ∃ found, pieces arguments = .ok found ∧
      (Settings.valuePositions given).map (arguments[·]?) =
        (given.filterMap Settings.Piece.value?).map some ∧
      Settings.valuePositions given = skippedPositions found ∧
      ∃ k, sourcePositions found = [k] ∧ arguments[k]? = some source.text ∧
        k ∉ Settings.valuePositions given ∧ k ∉ Settings.settingPositions given := by
  obtain ⟨found, hfound, hsources⟩ := of_source_eq_ok hsource
  have htogether := together_of_pieces hgiven hfound
  refine ⟨found, hfound, htogether.getElem?_values [], htogether.positions_eq 0, ?_⟩
  have hplaces := htogether.getElem?_sources []
  rw [hsources, List.map_singleton, List.map_eq_singleton_iff] at hplaces
  obtain ⟨k, hk, htext⟩ := hplaces
  have hsetting : k ∉ Settings.settingPositions given :=
    htogether.not_mem_of_source 0 (hk ▸ List.mem_singleton_self k)
  exact ⟨k, hk, htext, fun h => hsetting (mem_positions_mono settingOffset?_of_valueOffset? h),
    hsetting⟩

/-- A command line with options of all kinds, whose path is a reserved word. -/
def mixedLine : List String :=
  ["--fork", "london", "--file", "constructor", "--format=json", "--strict-code-end", "-f", "text"]

/-- What the settings read there. -/
def mixedGiven : List Settings.Piece :=
  [.option .hardfork "london", .passedOver, .passedOver, .assignment .format "json",
    .flag .strictEnd, .option .format "text"]

/-- Both can read the line, skip the second and the last argument, and agree
    that the path is code and nothing else. -/
theorem readings_agree_mixedLine :
    Settings.pieces mixedLine = .ok mixedGiven ∧
    Command.source mixedLine = .ok (.file "constructor") ∧
    Settings.valuePositions mixedGiven = [1, 7] ∧
    ∃ found, pieces mixedLine = .ok found ∧ skippedPositions found = [1, 7] ∧
      ∃ k, sourcePositions found = [k] ∧ mixedLine[k]? = some "constructor" ∧ k ∉ [1, 7] := by
  have hgiven : Settings.pieces mixedLine = .ok mixedGiven := by decide +kernel
  have hsource : Command.source mixedLine = .ok (.file "constructor") := by decide +kernel
  have hvalues : Settings.valuePositions mixedGiven = [1, 7] := rfl
  obtain ⟨found, hfound, -, heq, k, hk, htext, hnotMem, -⟩ := readings_agree hgiven hsource
  rw [hvalues] at heq hnotMem
  exact ⟨hgiven, hsource, hvalues, found, hfound, heq.symm, k, hk, htext, hnotMem⟩

end Command

end EvmFlow
