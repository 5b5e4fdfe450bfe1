import EvmFlow.Catalogue.Document
import EvmFlow.Proofs.CodeText
import EvmFlow.Proofs.Numerals

/-!
# Entries between documents and records

An entry is read from a document or a record if that holds the fields of the
entry (`Catalogue.Entry.Holds`) and its opcode, as a string or as a number. So a
document or a record that is read is the one that is written for its entry, apart
from keys that entries do not have (`Catalogue.Entry.restrict_of_holds`).

A record is checked by its text only. The text of a negative number has a sign,
that of a fraction a point, and that of any other number but the 256 opcodes has
too many digits, so none of these is taken for an opcode
(`Catalogue.Entry.opcodeOfText?_opcodeText_iff`).

* `Catalogue.Entry.codec_exact`: which documents and records are accepted, and
  that the two directions undo each other.
-/

namespace EvmFlow

/-- The value with no other keys than the given ones. -/
def Json.restrict (keys : List String) (j : Json) : Json :=
  .obj (keys.filterMap fun key => (j.field? key).map fun value => (key, value))

/-! ## Reading fields -/

theorem eq_num_of_den_eq_one {q : Rat} (h : q.den = 1) : q = (q.num : Rat) :=
  Rat.ext (Rat.num_intCast q.num).symm (h.trans (Rat.den_intCast q.num).symm)

theorem Json.number?_eq_some_iff {j : Json} {q : Rat} : j.number? = some q ↔ j = .num q := by
  cases j <;> simp [Json.number?]

theorem Json.integer?_eq_some_iff {j : Json} {k : Int} : j.integer? = some k ↔ j = .ofInt k := by
  constructor
  · intro h
    cases j with
    | num q =>
      rw [Json.integer?] at h
      split at h
      · next hden =>
        cases h
        rw [Json.ofInt, ← eq_num_of_den_eq_one hden]
      · cases h
    | _ => cases h
  · rintro rfl
    exact Json.integer?_ofInt k

theorem Json.below?_eq_some_iff {j : Json} {n : Nat} {k : Fin n} :
    j.below? n = some k ↔ j = .ofInt k.val := by
  constructor
  · intro h
    rw [Json.below?] at h
    obtain ⟨m, hm, h⟩ := Option.bind_eq_some_iff.1 h
    split at h
    · next hrange =>
      cases h
      rw [Json.integer?_eq_some_iff.1 hm, Int.toNat_of_nonneg hrange.1]
    · cases h
  · rintro rfl
    exact Json.below?_ofInt k

/-! ## The text of a number -/

namespace Text

variable {base : Nat} {q : Rat}

theorem number_of_den_eq_one (h : q.den = 1) : number base q = numeral base q.num := by
  simp only [number, h, Nat.div_one, Nat.mod_one, if_pos, List.append_nil]
  cases q.num with
  | ofNat n => simp [numeral]
  | negSucc n => simp [numeral, Int.negSucc_lt_zero n]

/-- The text of a fraction has a point. -/
theorem point_mem_number (h : q.den ≠ 1) : '.' ∈ number base q := by
  have hrest : q.num.natAbs % q.den ≠ 0 := fun hzero =>
    h (Nat.Coprime.eq_one_of_dvd q.reduced.symm (Nat.dvd_of_mod_eq_zero hzero))
  rw [number]
  simp only [if_neg hrest]
  exact List.mem_append_right _ List.mem_cons_self

end Text

namespace Catalogue.Entry

open Text Text.Hex

variable {e : Entry} {j opcode : Json} {b : UInt8} {q : Rat} {text : String}

/-! ## Opcodes -/

theorem opcodeOfText?_eq_some_iff :
    opcodeOfText? text = some b ↔ text.toList = '0' :: 'x' :: pair b := by
  rw [opcodeOfText?]
  constructor
  · intro h
    split at h
    · next hi lo htext =>
      obtain ⟨b', -, h⟩ := Option.bind_eq_some_iff.1 h
      split at h
      · next hpair =>
        cases h
        rw [htext, hpair]
      · cases h
    · cases h
  · intro h
    rw [h]
    simp [pair, byte?_digit]

theorem pair_eq_zeroFilled (b : UInt8) : pair b = zeroFilled 2 (numeral 16 b.toNat) := by
  have hall : ∀ n : Fin 256, pair (UInt8.ofNat n) = zeroFilled 2 (numeral 16 (n : Nat)) := by
    decide +kernel
  have h := hall ⟨b.toNat, b.toNat_lt⟩
  rwa [UInt8.ofNat_toNat] at h

theorem reading_pair (b : UInt8) : reading 16 (pair b) = b.toNat := by
  rw [pair_eq_zeroFilled, reading_zeroFilled]
  exact reading_toDigits (by decide) (by decide) b.toNat

theorem toList_opcodeText (q : Rat) :
    (opcodeText q).toList = '0' :: 'x' :: zeroFilled 2 (number 16 q) := by
  rw [opcodeText, String.toList_append, String.toList_ofList (l := zeroFilled 2 (number 16 q))]
  rfl

/-- The text of a number is taken for an opcode only if the number is one of the
    256 opcodes. -/
theorem opcodeOfText?_opcodeText_iff :
    opcodeOfText? (opcodeText q) = some b ↔ q = (b.toNat : Int) := by
  rw [opcodeOfText?_eq_some_iff, toList_opcodeText, pair_eq_zeroFilled]
  constructor
  · intro h
    have hfilled := List.tail_eq_of_cons_eq (List.tail_eq_of_cons_eq h)
    by_cases hden : q.den = 1
    · rw [number_of_den_eq_one hden] at hfilled
      rw [← zeroFilled_numeral_inj (by decide) (by decide) hfilled]
      exact eq_num_of_den_eq_one hden
    · -- a digit is no point
      have hpoint : '.' ∈ zeroFilled 2 (number 16 q) :=
        List.mem_append_right _ (point_mem_number hden)
      rw [hfilled, ← pair_eq_zeroFilled] at hpoint
      have hdigits : ∀ n : Fin 16, digit n ≠ '.' := by decide
      have hlt := b.toNat_lt
      rcases List.mem_cons.1 hpoint with hhi | hlo
      · exact absurd hhi.symm (hdigits ⟨b.toNat / 16, by omega⟩)
      · exact absurd (List.mem_singleton.1 hlo).symm (hdigits ⟨b.toNat % 16, by omega⟩)
  · rintro rfl
    rw [number_of_den_eq_one (Rat.den_intCast _), Rat.num_intCast]

theorem opcodeText_of_opcodeOfText? (h : opcodeOfText? text = some b) :
    text = opcodeText (b.toNat : Int) := by
  have hself : opcodeOfText? (opcodeText (b.toNat : Int)) = some b :=
    opcodeOfText?_opcodeText_iff.2 rfl
  rw [opcodeOfText?_eq_some_iff] at h hself
  exact String.toList_inj.1 (h.trans hself.symm)

/-! ## Entries -/

/-- The keys of an entry. -/
def keys : List String :=
  ["opcode", "name", "consumes", "produces", "immediate", "kind", "since"]

/-- The value holds the fields of the entry apart from the opcode. -/
structure Holds (e : Entry) (j : Json) : Prop where
  name : j.field? "name" = some (.str e.name)
  consumes : j.field? "consumes" = some (.ofInt e.consumes.val)
  produces : j.field? "produces" = some (.ofInt e.produces.val)
  immediate : j.field? "immediate" = some (.ofInt e.immediate.val)
  kind : j.field? "kind" = some (.str e.kind.name)
  since : j.field? "since" = some (.str e.since.name)

theorem ofFields?_eq_some_iff : ofFields? b j = some e ↔ e.opcode = b ∧ e.Holds j := by
  simp only [ofFields?, Option.bind_eq_bind, Option.bind_eq_some_iff]
  constructor
  · rintro ⟨_, hname, name, htext, _, hconsumes, consumes, hc, _, hproduces, produces, hp,
      _, himmediate, immediate, hi, _, hkind, _, hktext, kind, hk, _, hsince, _, hstext, since, hs,
      hentry⟩
    cases hentry
    rw [Json.text?_eq_some_iff] at htext hktext hstext
    rw [Json.below?_eq_some_iff] at hc hp hi
    rw [Kind.ofName?_eq_some_iff] at hk
    rw [Hardfork.ofName?_eq_some_iff] at hs
    subst htext hktext hstext hc hp hi hk hs
    exact ⟨rfl, hname, hconsumes, hproduces, himmediate, hkind, hsince⟩
  · rintro ⟨rfl, h⟩
    exact ⟨_, h.name, _, rfl, _, h.consumes, _, Json.below?_ofInt _, _, h.produces, _,
      Json.below?_ofInt _, _, h.immediate, _, Json.below?_ofInt _, _, h.kind, _, rfl, _,
      Kind.ofName?_name _, _, h.since, _, rfl, _, Hardfork.ofName?_name _, rfl⟩

/-- What is written for an entry holds its fields. -/
theorem holds_toFields (e : Entry) (opcode : Json) : e.Holds (e.toFields opcode) where
  name := rfl
  consumes := rfl
  produces := rfl
  immediate := rfl
  kind := rfl
  since := rfl

/-- What holds the fields of an entry is what is written for it, apart from other
    keys. -/
theorem restrict_of_holds (hopcode : j.field? "opcode" = some opcode) (h : e.Holds j) :
    j.restrict keys = e.toFields opcode := by
  simp only [Json.restrict, keys, List.filterMap_cons, List.filterMap_nil, hopcode, h.name,
    h.consumes, h.produces, h.immediate, h.kind, h.since, Option.map_some, toFields]

theorem ofDocument?_eq_some_iff : ofDocument? j = some e ↔
    j.field? "opcode" = some (.str (opcodeText (e.opcode.toNat : Int))) ∧ e.Holds j := by
  simp only [ofDocument?, Option.bind_eq_bind, Option.bind_eq_some_iff, ofFields?_eq_some_iff]
  constructor
  · rintro ⟨_, hfield, text, htext, b, hb, rfl, hholds⟩
    rw [Json.text?_eq_some_iff.1 htext, opcodeText_of_opcodeOfText? hb] at hfield
    exact ⟨hfield, hholds⟩
  · rintro ⟨hfield, hholds⟩
    exact ⟨_, hfield, _, rfl, _, opcodeOfText?_opcodeText_iff.2 rfl, rfl, hholds⟩

theorem ofRecord?_eq_some_iff : ofRecord? j = some e ↔
    j.field? "opcode" = some (.ofInt e.opcode.toNat) ∧ e.Holds j := by
  simp only [ofRecord?, Option.bind_eq_bind, Option.bind_eq_some_iff, ofFields?_eq_some_iff]
  constructor
  · rintro ⟨_, hfield, q, hq, b, hb, rfl, hholds⟩
    rw [Json.number?_eq_some_iff.1 hq, opcodeOfText?_opcodeText_iff.1 hb] at hfield
    exact ⟨hfield, hholds⟩
  · rintro ⟨hfield, hholds⟩
    exact ⟨_, hfield, _, rfl, _, opcodeOfText?_opcodeText_iff.2 rfl, rfl, hholds⟩

/-! ## Both directions -/

/-- All fields apart from the opcode are there and in range. -/
structure HasFields (j : Json) : Prop where
  name : ∃ s, j.field? "name" = some (.str s)
  consumes : ∃ n : Int, 0 ≤ n ∧ n ≤ 17 ∧ j.field? "consumes" = some (.num n)
  produces : ∃ n : Int, 0 ≤ n ∧ n ≤ 17 ∧ j.field? "produces" = some (.num n)
  immediate : ∃ n : Int, 0 ≤ n ∧ n ≤ 32 ∧ j.field? "immediate" = some (.num n)
  kind : ∃ k : Kind, j.field? "kind" = some (.str k.name)
  since : ∃ f : Hardfork, j.field? "since" = some (.str f.name)

/-- A string of the mark `0x` and two lower-case digits. -/
def IsOpcodeText (text : String) : Prop :=
  ∃ hi ∈ lowerDigits, ∃ lo ∈ lowerDigits, text.toList = ['0', 'x', hi, lo]

/-- The fields of an entry, with its opcode as a string. -/
def IsDocument (j : Json) : Prop :=
  (∃ text, IsOpcodeText text ∧ j.field? "opcode" = some (.str text)) ∧ HasFields j

/-- The fields of an entry, with its opcode as a number. -/
def IsRecord (j : Json) : Prop :=
  (∃ n : Int, 0 ≤ n ∧ n ≤ 255 ∧ j.field? "opcode" = some (.num n)) ∧ HasFields j

theorem exists_opcodeOfText?_iff : (∃ b, opcodeOfText? text = some b) ↔ IsOpcodeText text := by
  simp only [opcodeOfText?_eq_some_iff]
  constructor
  · rintro ⟨b, h⟩
    have hdigits : ∀ n : Fin 16, digit n ∈ lowerDigits := by decide
    have hlt := b.toNat_lt
    exact ⟨_, hdigits ⟨b.toNat / 16, by omega⟩, _, hdigits ⟨b.toNat % 16, by omega⟩, h⟩
  · rintro ⟨hi, hhi, lo, hlo, h⟩
    have hlower : ∀ c ∈ lowerDigits, c ∈ alphabet ∧ c.toLower = c := by
      have hall : (lowerDigits.all fun c => c ∈ alphabet ∧ c.toLower = c) = true := by decide
      exact fun c hc => of_decide_eq_true (List.all_eq_true.1 hall c hc)
    obtain ⟨b, hb⟩ := exists_byte? (hlower hi hhi).1 (hlower lo hlo).1
    refine ⟨b, ?_⟩
    rw [h, (of_byte? hb).2.2, (hlower hi hhi).2, (hlower lo hlo).2]

/-- A number in range is one of the numbers that an entry can have. -/
theorem exists_fin_iff {field : Option Json} {n : Nat} :
    (∃ k : Fin (n + 1), field = some (.ofInt k.val)) ↔
      ∃ k : Int, 0 ≤ k ∧ k ≤ n ∧ field = some (.num k) := by
  constructor
  · rintro ⟨k, h⟩
    exact ⟨k.val, Int.natCast_nonneg _, Int.ofNat_le.2 (Nat.le_of_lt_succ k.isLt), h⟩
  · rintro ⟨k, hlow, hhigh, h⟩
    obtain ⟨m, rfl⟩ := Int.eq_ofNat_of_zero_le hlow
    exact ⟨⟨m, Nat.lt_succ_of_le (Int.ofNat_le.1 hhigh)⟩, h⟩

/-- The fields are in range if they are those of some entry, whatever its
    opcode. -/
theorem exists_holds_iff (b : UInt8) : (∃ e : Entry, e.opcode = b ∧ e.Holds j) ↔ HasFields j := by
  constructor
  · rintro ⟨e, -, h⟩
    exact ⟨⟨_, h.name⟩, exists_fin_iff.1 ⟨_, h.consumes⟩, exists_fin_iff.1 ⟨_, h.produces⟩,
      exists_fin_iff.1 ⟨_, h.immediate⟩, ⟨_, h.kind⟩, ⟨_, h.since⟩⟩
  · rintro ⟨⟨name, hname⟩, hconsumes, hproduces, himmediate, ⟨kind, hkind⟩, ⟨since, hsince⟩⟩
    obtain ⟨consumes, hconsumes⟩ := exists_fin_iff.2 hconsumes
    obtain ⟨produces, hproduces⟩ := exists_fin_iff.2 hproduces
    obtain ⟨immediate, himmediate⟩ := exists_fin_iff.2 himmediate
    exact ⟨⟨b, name, consumes, produces, immediate, kind, since⟩, rfl,
      ⟨hname, hconsumes, hproduces, himmediate, hkind, hsince⟩⟩

theorem exists_decode?_iff : (∃ r, decode? j = some r) ↔ IsDocument j := by
  constructor
  · rintro ⟨_, h⟩
    obtain ⟨e, he, -⟩ := Option.map_eq_some_iff.1 h
    obtain ⟨hfield, hholds⟩ := ofDocument?_eq_some_iff.1 he
    have htext := exists_opcodeOfText?_iff.1 ⟨e.opcode, opcodeOfText?_opcodeText_iff.2 rfl⟩
    exact ⟨⟨_, htext, hfield⟩, (exists_holds_iff e.opcode).1 ⟨e, rfl, hholds⟩⟩
  · rintro ⟨⟨text, htext, hfield⟩, hfields⟩
    obtain ⟨b, hb⟩ := exists_opcodeOfText?_iff.2 htext
    obtain ⟨e, rfl, hholds⟩ := (exists_holds_iff b).2 hfields
    rw [opcodeText_of_opcodeOfText? hb] at hfield
    exact ⟨_, Option.map_eq_some_iff.2 ⟨e, ofDocument?_eq_some_iff.2 ⟨hfield, hholds⟩, rfl⟩⟩

theorem exists_encode?_iff : (∃ d, encode? j = some d) ↔ IsRecord j := by
  constructor
  · rintro ⟨_, h⟩
    obtain ⟨e, he, -⟩ := Option.map_eq_some_iff.1 h
    obtain ⟨hfield, hholds⟩ := ofRecord?_eq_some_iff.1 he
    have hle : e.opcode.toNat ≤ 255 := Nat.le_of_lt_succ e.opcode.toNat_lt
    exact ⟨⟨_, Int.natCast_nonneg _, Int.ofNat_le.2 hle, hfield⟩,
      (exists_holds_iff e.opcode).1 ⟨e, rfl, hholds⟩⟩
  · rintro ⟨hopcode, hfields⟩
    obtain ⟨n, hfield⟩ := exists_fin_iff.2 hopcode
    obtain ⟨e, he, hholds⟩ := (exists_holds_iff (UInt8.ofNat n)).2 hfields
    have hn : e.opcode.toNat = n := by rw [he, UInt8.toNat_ofNat_of_lt' n.isLt]
    rw [← hn] at hfield
    exact ⟨_, Option.map_eq_some_iff.2 ⟨e, ofRecord?_eq_some_iff.2 ⟨hfield, hholds⟩, rfl⟩⟩

theorem encode?_of_decode? {r : Json} (h : decode? j = some r) :
    encode? r = some (j.restrict keys) := by
  obtain ⟨e, he, rfl⟩ := Option.map_eq_some_iff.1 h
  obtain ⟨hfield, hholds⟩ := ofDocument?_eq_some_iff.1 he
  rw [restrict_of_holds hfield hholds]
  exact Option.map_eq_some_iff.2
    ⟨e, ofRecord?_eq_some_iff.2 ⟨rfl, holds_toFields e (.ofInt e.opcode.toNat)⟩, rfl⟩

theorem decode?_of_encode? {d : Json} (h : encode? j = some d) :
    decode? d = some (j.restrict keys) := by
  obtain ⟨e, he, rfl⟩ := Option.map_eq_some_iff.1 h
  obtain ⟨hfield, hholds⟩ := ofRecord?_eq_some_iff.1 he
  rw [restrict_of_holds hfield hholds]
  exact Option.map_eq_some_iff.2
    ⟨e, ofDocument?_eq_some_iff.2 ⟨rfl, holds_toFields e (.str (opcodeText _))⟩, rfl⟩

/-- A string is taken for an opcode if it is the mark `0x` and two lower-case
    digits. A document is decoded, and a record encoded, if all fields are there
    and in range, and each of the two gives back what the other was given, apart
    from keys that entries do not have. -/
theorem codec_exact :
    (∀ text b, opcodeOfText? text = some b ↔ ∃ hi ∈ lowerDigits, ∃ lo ∈ lowerDigits,
      text.toList = ['0', 'x', hi, lo] ∧ reading 16 [hi, lo] = b.toNat) ∧
    (∀ v, (∃ r, decode? v = some r) ↔ IsDocument v) ∧
    (∀ v r, decode? v = some r → encode? r = some (v.restrict keys)) ∧
    (∀ r, (∃ d, encode? r = some d) ↔ IsRecord r) ∧
    (∀ r d, encode? r = some d → decode? d = some (r.restrict keys)) := by
  refine ⟨fun text b => ⟨fun h => ?_, ?_⟩, fun _ => exists_decode?_iff,
    fun _ _ => encode?_of_decode?, fun _ => exists_encode?_iff, fun _ _ => decode?_of_encode?⟩
  · obtain ⟨hi, hhi, lo, hlo, htext⟩ := exists_opcodeOfText?_iff.1 ⟨b, h⟩
    have hpair := htext.symm.trans (opcodeOfText?_eq_some_iff.1 h)
    refine ⟨hi, hhi, lo, hlo, htext, ?_⟩
    rw [List.tail_eq_of_cons_eq (List.tail_eq_of_cons_eq hpair), reading_pair]
  · rintro ⟨hi, hhi, lo, hlo, htext, hvalue⟩
    obtain ⟨b', h⟩ := exists_opcodeOfText?_iff.2 ⟨hi, hhi, lo, hlo, htext⟩
    have hpair := htext.symm.trans (opcodeOfText?_eq_some_iff.1 h)
    rw [List.tail_eq_of_cons_eq (List.tail_eq_of_cons_eq hpair), reading_pair] at hvalue
    rw [h, UInt8.toNat_inj.1 hvalue]

/-- The instruction `SIGNEXTEND` with one more field, its opcode being written as
    given. -/
def signExtend (opcode : Json) : Json :=
  .obj [("since", .str "frontier"), ("gas", .num 5), ("kind", .str "plain"),
    ("opcode", opcode), ("name", .str "SIGNEXTEND"), ("consumes", .num 2), ("produces", .num 1),
    ("immediate", .num 0)]

theorem codec_signExtend :
    (∃ r, decode? (signExtend (.str "0x0b")) = some r ∧
      encode? r = some ((signExtend (.str "0x0b")).restrict keys)) ∧
    (∃ d, encode? (signExtend (.num 11)) = some d ∧
      decode? d = some ((signExtend (.num 11)).restrict keys)) :=
  ⟨⟨_, rfl, codec_exact.2.2.1 _ _ rfl⟩, ⟨_, rfl, codec_exact.2.2.2.2 _ _ rfl⟩⟩

end Catalogue.Entry

end EvmFlow
