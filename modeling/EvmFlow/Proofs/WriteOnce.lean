import Mathlib.Data.List.Dedup
import Mathlib.Data.List.Induction
import EvmFlow.Proofs.Deployment
import EvmFlow.Proofs.HexText

/-!
# Code is written once

Addresses come as texts, and two texts write the same address if they differ
only in the case of letters (`Address.eq_iff_toLower_eq`). What a sequence of
requests has stored can be told from its answers alone: a deployment that was
carried out or a put that was answered by `stored` is a *write*
(`Deployment.writes`). The registry holds the code of the first write to each
address, and there is no second one (`Deployment.Recorded`).

Requests on one address do not notice those on others: they are answered from
what the registry holds at that address, which no other request changes
(`Deployment.perform_congr`, `Deployment.Stores.get?_eq`).

* `Deployment.write_once`: what is read, counted and answered, over all runs of
  requests from the empty registry.
-/

namespace EvmFlow

theorem Text.toList_toLower (text : String) :
    text.toLower.toList = text.toList.map Char.toLower := String.toList_map ..

namespace Address

variable {text other : String} {a b : Address}

/-- The texts that write an address: the mark `0x` and forty hexadecimal
    digits, each in either case. -/
def IsWritten (text : String) : Prop :=
  ∃ digits : List Char, text.toList = '0' :: 'x' :: digits ∧ digits.length = 40 ∧
    ∀ c ∈ digits, c ∈ Text.Hex.alphabet

theorem ofBytes?_eq_some_iff {bytes : List UInt8} : ofBytes? bytes = some a ↔ a.bytes = bytes := by
  rw [ofBytes?]
  split
  · rw [Option.some.injEq]
    exact ⟨fun h => h ▸ rfl, fun h => by cases h; rfl⟩
  · next hlength => exact iff_of_false (Option.some_ne_none a).symm fun h => hlength (h ▸ a.length_eq)

theorem ofText?_eq_some_iff : ofText? text = some a ↔
    ∃ digits, text.toList = '0' :: 'x' :: digits ∧ Text.Hex.bytes? digits = some a.bytes := by
  rw [ofText?]
  split
  · next digits htext =>
    rw [Option.bind_eq_some_iff, htext]
    constructor
    · rintro ⟨bytes, hbytes, ha⟩
      exact ⟨digits, rfl, ofBytes?_eq_some_iff.1 ha ▸ hbytes⟩
    · rintro ⟨digits', hdigits, hbytes⟩
      cases hdigits
      exact ⟨a.bytes, hbytes, ofBytes?_eq_some_iff.2 rfl⟩
  · next hmark =>
    exact iff_of_false (Option.some_ne_none a).symm fun ⟨digits, htext, _⟩ => hmark digits htext

/-- An address is written by the mark and forty digits, and by nothing else. -/
theorem exists_ofText?_iff : (∃ a, ofText? text = some a) ↔ IsWritten text := by
  simp only [ofText?_eq_some_iff]
  constructor
  · rintro ⟨a, digits, htext, hbytes⟩
    exact ⟨digits, htext, Text.Hex.exists_bytes?_iff.1 ⟨a.bytes, hbytes, a.length_eq⟩⟩
  · rintro ⟨digits, htext, hdigits⟩
    obtain ⟨bytes, hbytes, hlength⟩ := Text.Hex.exists_bytes?_iff (n := 20).2 hdigits
    exact ⟨⟨bytes, hlength⟩, digits, htext, hbytes⟩

/-- An address is shown as the text that wrote it, in lower case. -/
theorem toText_of_ofText? (h : ofText? text = some a) : a.toText = text.toLower := by
  obtain ⟨digits, htext, hbytes⟩ := ofText?_eq_some_iff.1 h
  apply String.toList_inj.1
  rw [toText, Text.Hex.toList_render, Text.Hex.digits_of_bytes? hbytes, Text.toList_toLower, htext]
  rfl

/-- Two texts write the same address if they differ only in case. -/
theorem eq_iff_toLower_eq (ha : ofText? text = some a) (hb : ofText? other = some b) :
    a = b ↔ text.toLower = other.toLower := by
  rw [← toText_of_ofText? ha, ← toText_of_ofText? hb, toText_inj]

end Address

namespace Registry

variable {r s : Registry} {address : Address} {bytes : Array UInt8}

theorem count_of_put? (h : r.put? address bytes = some s) : s.count = r.count + 1 := by
  rw [put?] at h
  split at h
  · cases h
  · cases h
    rfl

theorem get?_eq_none_of_put? (h : r.put? address bytes = some s) : r.get? address = none := by
  have hcontains := contains_of_put? h
  rwa [contains, Option.isSome_eq_false_iff, Option.isNone_iff_eq_none] at hcontains

/-- Whether code can be stored at an address depends on what is there. -/
theorem put?_congr {r' : Registry} (h : r.get? address = r'.get? address) (bytes : Array UInt8) :
    (r.put? address bytes = none ∧ r'.put? address bytes = none) ∨
      ∃ s s', r.put? address bytes = some s ∧ r'.put? address bytes = some s' := by
  have hcontains : r.contains address = r'.contains address := congrArg Option.isSome h
  cases hr : r.put? address bytes with
  | none =>
    rw [put?_eq_none_iff, hcontains] at hr
    exact .inl ⟨rfl, put?_eq_none_iff.2 hr⟩
  | some s =>
    cases hr' : r'.put? address bytes with
    | none =>
      rw [put?_eq_none_iff, ← hcontains, contains_of_put? hr] at hr'
      cases hr'
    | some s' => exact .inr ⟨s, s', rfl, rfl⟩

end Registry

namespace Deployment

/-! ## Writes -/

/-- Code that was stored, and the text of the address. -/
structure Write where
  text : String
  bytes : Array UInt8
  deriving DecidableEq

/-- The text of the address that a request is about. -/
def Request.text? : Request → Option String
  | deploy text _ | put text _ | get text | has text => some text
  | count => none

/-- The request is about an address. -/
def Request.isOn (address : Address) (request : Request) : Bool :=
  request.text?.bind Address.ofText? == some address

/-- What a request has stored, according to its answer. -/
def Request.written? : Request → Response → Option Write
  | deploy text payload, .deployed _ | put text payload, .stored =>
    payload.bytes?.map fun bytes => ⟨text, bytes⟩
  | _, _ => none

variable (terms : Terms)

/-- The requests of a run with their answers. -/
def transcript (registry : Registry) (requests : List Request) : List (Request × Logged Response) :=
  requests.zip ((serve terms registry requests).map Prod.fst)

/-- The writes of a run that starts with the empty registry, in order. -/
def writes (requests : List Request) : List Write :=
  (transcript terms .empty requests).filterMap fun (request, answer) =>
    request.written? answer.result

/-- The code of the first write to the address that a text writes, in whatever
    case. -/
def firstWrite? (requests : List Request) (text : String) : Option (Array UInt8) :=
  ((writes terms requests).find? fun w => w.text.toLower == text.toLower).map (·.bytes)

/-- The requests of a run on an address, with their answers. -/
def answersOn (registry : Registry) (address : Address) (requests : List Request) :
    List (Request × Logged Response) :=
  (transcript terms registry requests).filter fun answered => answered.1.isOn address

/-- What is read, counted and answered after a sequence of requests. -/
structure WriteOnce (history : List Request) : Prop where
  /-- The code at an address is that of the first write. -/
  get (text : String) : Address.IsWritten text →
    answerAfter terms history (.get text) = .code (firstWrite? terms history text)
  /-- There is code at an address if there was a write. -/
  has (text : String) : Address.IsWritten text →
    answerAfter terms history (.has text) = .has (firstWrite? terms history text).isSome
  /-- The first write stays the first one, whatever comes later. -/
  lasting (text : String) (bytes : Array UInt8) (later : List Request) :
    firstWrite? terms history text = some bytes →
      firstWrite? terms (history ++ later) text = some bytes
  /-- No address is written twice. -/
  once : ((writes terms history).map (·.text.toLower)).Nodup
  /-- The addresses that were written are counted. -/
  count : answerAfter terms history .count =
    .count ((writes terms history).map (·.text.toLower)).dedup.length
  /-- Requests on an address are answered as if there were no others, or only
      some of the others. -/
  isolated (address : Address) (keep : Request → Bool) :
    (∀ request, request.isOn address = true → keep request = true) →
      answersOn terms .empty address (history.filter keep) = answersOn terms .empty address history

variable {terms} {r r' s : Registry} {address : Address} {request : Request}

theorem transcript_append (history requests : List Request) :
    transcript terms r (history ++ requests) =
      transcript terms r history ++ transcript terms (after terms r history) requests := by
  rw [transcript, serve_append, List.map_append, List.zip_append (by simp)]
  rfl

variable (r request) in
/-- What a request does to the registry: nothing, or it stores what it has
    written, at an address that had no code. -/
inductive Stores : Option Write → Registry → Prop
  | unchanged : Stores none r
  | stored {w : Write} {address : Address} {s : Registry} : request.text? = some w.text →
      Address.ofText? w.text = some address → r.put? address w.bytes = some s → Stores (some w) s

theorem written?_eq_none {answer : Response} (h : ¬answer.IsWrite) :
    request.written? answer = none := by
  cases answer with
  | deployed => exact absurd trivial h
  | stored => exact absurd trivial h
  | _ => cases request <;> rfl

theorem Stores.of_not_isWrite {answer : Response} (h : ¬answer.IsWrite) :
    Stores r request (request.written? answer) r := by
  rw [written?_eq_none h]
  exact .unchanged

theorem stores_withAddress {text : String} {answer : Address → Registry × Logged Response}
    (h : ∀ address, Address.ofText? text = some address →
      Stores r request (request.written? (answer address).2.result) (answer address).1) :
    Stores r request (request.written? (withAddress r text answer).2.result)
      (withAddress r text answer).1 := by
  rw [withAddress]
  split
  · exact .of_not_isWrite id
  · next address ha => exact h address ha

theorem Deploys.stores {text : String} {payload : Payload} {bytes : Array UInt8}
    {result : Except Failure Receipt} (ha : Address.ofText? text = some address)
    (hb : payload.bytes? = some bytes) (h : Deploys terms r address bytes result s) :
    Stores r (.deploy text payload)
      ((Request.deploy text payload).written? (.ofResult result)) s := by
  cases h with
  | oversized => exact .of_not_isWrite id
  | rejected => exact .of_not_isWrite id
  | occupied => exact .of_not_isWrite id
  | stored _ _ hput =>
    simp only [Response.ofResult, Request.written?, hb]
    exact .stored rfl ha hput

variable (terms r) in
theorem stores_perform (request : Request) :
    Stores r request (request.written? (perform terms r request).2.result)
      (perform terms r request).1 := by
  cases request with
  | deploy text payload =>
    cases hb : payload.bytes? with
    | none =>
      refine stores_withAddress fun address ha => ?_
      simp only [hb]
      exact .of_not_isWrite id
    | some bytes =>
      cases ha : Address.ofText? text with
      | none =>
        simp only [perform, withAddress, ha]
        exact .of_not_isWrite id
      | some address =>
        rw [perform_deploy ha hb]
        exact deploys_deploy.stores ha hb
  | put text payload =>
    refine stores_withAddress fun address ha => ?_
    split
    · exact .of_not_isWrite id
    · next bytes hb =>
      split
      · exact .of_not_isWrite id
      · next s hput =>
        simp only [Request.written?, hb]
        exact .stored rfl ha hput
  | get text => exact stores_withAddress fun _ _ => .of_not_isWrite id
  | has text => exact stores_withAddress fun _ _ => .of_not_isWrite id
  | count => exact .unchanged

/-! ## What the registry holds -/

/-- The registry holds the code of the first write to each address, and there
    is one write for each address that it has. -/
structure Recorded (ws : List Write) (r : Registry) : Prop where
  get? (a : Address) :
    r.get? a = (ws.find? fun w => w.text.toLower == a.toText).map (·.bytes)
  count : r.count = ws.length
  nodup : (ws.map (·.text.toLower)).Nodup

theorem recorded_nil : Recorded [] .empty := ⟨fun _ => rfl, rfl, .nil⟩

theorem Recorded.step {ws : List Write} {written : Option Write} (hr : Recorded ws r)
    (h : Stores r request written s) : Recorded (ws ++ written.toList) s := by
  cases h with
  | unchanged => rwa [Option.toList_none, List.append_nil]
  | @stored w address s _ ha hput =>
    have htext := Address.toText_of_ofText? ha
    -- the address had no code, so none of the writes was to it
    have hnew : ws.find? (fun v => v.text.toLower == address.toText) = none := by
      have hnone := hr.get? address
      rwa [Registry.get?_eq_none_of_put? hput, eq_comm, Option.map_eq_none_iff] at hnone
    refine ⟨fun a => ?_, ?_, ?_⟩
    · rw [Registry.get?_of_put? hput, Option.toList_some, List.find?_append]
      split
      · next haddress =>
        rw [haddress, hnew, Option.none_or, List.find?_singleton, beq_iff_eq.2 htext.symm]
        rfl
      · next haddress =>
        have hne : (w.text.toLower == a.toText) = false :=
          beq_eq_false_iff_ne.2 fun h => haddress (Address.toText_inj.1 (htext.trans h)).symm
        rw [hr.get? a, List.find?_singleton, hne]
        simp
    · rw [Registry.count_of_put? hput, hr.count, Option.toList_some, List.length_append,
        List.length_singleton]
    · rw [Option.toList_some, List.map_append, List.nodup_append]
      refine ⟨hr.nodup, List.nodup_singleton _, ?_⟩
      rintro _ hv _ hw rfl
      obtain ⟨v, hv, hvw⟩ := List.mem_map.1 hv
      rw [List.map_singleton, List.mem_singleton] at hw
      exact List.find?_eq_none.1 hnew v hv (beq_iff_eq.2 (by rw [hvw, hw, htext]))

theorem writes_concat (history : List Request) (request : Request) :
    writes terms (history ++ [request]) = writes terms history ++
      (request.written? (answerAfter terms history request)).toList := by
  rw [writes, transcript_append, List.filterMap_append, ← writes]
  cases hw : request.written? (answerAfter terms history request) with
  | none => exact congrArg _ (List.filterMap_cons_none hw)
  | some w => exact congrArg _ (List.filterMap_cons_some hw)

variable (terms) in
/-- After any sequence of requests, the registry holds what was written. -/
theorem recorded_after (history : List Request) :
    Recorded (writes terms history) (after terms .empty history) := by
  -- the last request stores what it has written
  induction history using List.reverseRecOn with
  | nil => exact recorded_nil
  | append_singleton history request ih =>
    rw [writes_concat, after_concat]
    exact ih.step (stores_perform terms _ request)

/-! ## Requests on one address -/

variable (terms) in
/-- The answer to a deployment, and what it leaves at the address, depend on
    what is there. -/
theorem deploy_congr (h : r.get? address = r'.get? address) (bytes : Array UInt8) :
    (deploy terms r address bytes).2 = (deploy terms r' address bytes).2 ∧
      (deploy terms r address bytes).1.get? address =
        (deploy terms r' address bytes).1.get? address := by
  rw [deploy, deploy]
  split
  · exact ⟨rfl, h⟩
  · simp only
    split
    · exact ⟨rfl, h⟩
    · rcases Registry.put?_congr h bytes with ⟨hnone, hnone'⟩ | ⟨s, s', hsome, hsome'⟩
      · rw [hnone, hnone']
        exact ⟨rfl, h⟩
      · rw [hsome, hsome']
        exact ⟨rfl, by rw [Registry.get?_of_put? hsome, Registry.get?_of_put? hsome', if_pos rfl,
          if_pos rfl]⟩

variable (terms) in
/-- The answer to a request on an address, and what it leaves there, depend on
    what the registry holds there. -/
theorem perform_congr (hon : request.isOn address = true) (h : r.get? address = r'.get? address) :
    (perform terms r request).2 = (perform terms r' request).2 ∧
      (perform terms r request).1.get? address = (perform terms r' request).1.get? address := by
  have hcontains : r.contains address = r'.contains address := congrArg Option.isSome h
  have ha : request.text?.bind Address.ofText? = some address := beq_iff_eq.1 hon
  cases request with
  | deploy text payload =>
    have ha : Address.ofText? text = some address := ha
    cases hb : payload.bytes? with
    | none => simp only [perform, withAddress, ha, hb, h, and_self]
    | some bytes =>
      obtain ⟨hanswer, hget⟩ := deploy_congr terms h bytes
      rw [perform_deploy ha hb, perform_deploy ha hb, hanswer]
      exact ⟨rfl, hget⟩
  | put text payload =>
    have ha : Address.ofText? text = some address := ha
    simp only [perform, withAddress, ha]
    split
    · exact ⟨rfl, h⟩
    · next bytes hb =>
      rcases Registry.put?_congr h bytes with ⟨hnone, hnone'⟩ | ⟨s, s', hsome, hsome'⟩
      · rw [hnone, hnone']
        exact ⟨rfl, h⟩
      · rw [hsome, hsome']
        exact ⟨rfl, by rw [Registry.get?_of_put? hsome, Registry.get?_of_put? hsome', if_pos rfl,
          if_pos rfl]⟩
  | get text =>
    have ha : Address.ofText? text = some address := ha
    simp only [perform, withAddress, ha, h, and_self]
  | has text =>
    have ha : Address.ofText? text = some address := ha
    simp only [perform, withAddress, ha, hcontains, h, and_self]
  | count => cases ha

/-- A request changes nothing at the addresses it is not about. -/
theorem Stores.get?_eq {written : Option Write} (h : Stores r request written s)
    (hon : request.isOn address = false) : s.get? address = r.get? address := by
  cases h with
  | unchanged => rfl
  | @stored w a s htext ha hput =>
    have hne : address ≠ a := by
      rintro rfl
      rw [Request.isOn, htext, Option.bind_some, ha, beq_self_eq_true] at hon
      cases hon
    rw [Registry.get?_of_put? hput, if_neg hne]

theorem answersOn_cons_of_isOn (hon : request.isOn address = true) (requests : List Request) :
    answersOn terms r address (request :: requests) = (request, (perform terms r request).2) ::
      answersOn terms (perform terms r request).1 address requests :=
  List.filter_cons_of_pos hon

theorem answersOn_cons_of_not_isOn (hon : request.isOn address = false) (requests : List Request) :
    answersOn terms r address (request :: requests) =
      answersOn terms (perform terms r request).1 address requests :=
  List.filter_cons_of_neg (Bool.not_eq_true _ ▸ hon)

/-- Requests on an address are answered the same if some of the others are left
    out, provided that the registries agree there at first. -/
theorem answersOn_filter {keep : Request → Bool}
    (hkeep : ∀ request, request.isOn address = true → keep request = true)
    (h : r.get? address = r'.get? address) (requests : List Request) :
    answersOn terms r address (requests.filter keep) = answersOn terms r' address requests := by
  induction requests generalizing r r' with
  | nil => rfl
  | cons request requests ih =>
    cases hon : request.isOn address with
    | true =>
      obtain ⟨hanswer, hget⟩ := perform_congr terms hon h
      rw [List.filter_cons_of_pos (hkeep request hon), answersOn_cons_of_isOn hon,
        answersOn_cons_of_isOn hon, hanswer, ih hget]
    | false =>
      -- the request changes nothing at the address, whether it is left out or not
      have hstay := (stores_perform terms r' request).get?_eq hon
      rw [answersOn_cons_of_not_isOn hon]
      cases hk : keep request with
      | true =>
        have hstay' := (stores_perform terms r request).get?_eq hon
        rw [List.filter_cons_of_pos hk, answersOn_cons_of_not_isOn hon]
        exact ih (hstay'.trans (h.trans hstay.symm))
      | false =>
        rw [List.filter_cons_of_neg (Bool.not_eq_true _ ▸ hk)]
        exact ih (h.trans hstay.symm)

/-! ## The law -/

theorem firstWrite?_eq {text : String} (ha : Address.ofText? text = some address)
    (history : List Request) :
    (after terms .empty history).get? address = firstWrite? terms history text := by
  rw [(recorded_after terms history).get?, Address.toText_of_ofText? ha]
  rfl

variable (terms) in
theorem writes_append (history later : List Request) :
    ∃ ws, writes terms (history ++ later) = writes terms history ++ ws :=
  ⟨_, by rw [writes, transcript_append, List.filterMap_append]; rfl⟩

/-- Texts write an address exactly if they consist of the mark and forty digits,
    and the same address exactly if they differ only in case; and over all runs
    of requests, code is written once. -/
theorem write_once (terms : Terms) :
    (∀ text, (∃ address, Address.ofText? text = some address) ↔ Address.IsWritten text) ∧
    (∀ text other address, Address.ofText? text = some address → Address.IsWritten other →
      (Address.ofText? other = some address ↔ text.toLower = other.toLower)) ∧
    ∀ history, WriteOnce terms history := by
  refine ⟨fun _ => Address.exists_ofText?_iff, fun text other address ha hother => ?_,
    fun history => ?_⟩
  · obtain ⟨other', hb⟩ := Address.exists_ofText?_iff.2 hother
    rw [← Address.eq_iff_toLower_eq ha hb, hb, Option.some.injEq, eq_comm]
  · have hrecorded := recorded_after terms history
    constructor
    · intro text htext
      obtain ⟨address, ha⟩ := Address.exists_ofText?_iff.2 htext
      rw [← firstWrite?_eq ha]
      simp only [answerAfter, perform, withAddress, ha]
    · intro text htext
      obtain ⟨address, ha⟩ := Address.exists_ofText?_iff.2 htext
      rw [← firstWrite?_eq ha]
      simp only [answerAfter, perform, withAddress, ha]
      rfl
    · intro text bytes later hfirst
      obtain ⟨ws, hws⟩ := writes_append terms history later
      obtain ⟨w, hw, rfl⟩ := Option.map_eq_some_iff.1 hfirst
      rw [firstWrite?, hws, List.find?_append, hw]
      rfl
    · exact hrecorded.nodup
    · rw [hrecorded.nodup.dedup, List.length_map, ← hrecorded.count]
      rfl
    · exact fun address keep hkeep => answersOn_filter hkeep rfl history

/-- Another text that writes `slot`. -/
def slotTextLower : String := "0x00000000000000000000000000000000000000bb"

/-- Code is deployed at `slot`, and then code is to be put there and next to
    it. -/
def contended : List Request :=
  [.deploy slotText (.hex "0x00"), .put slotTextLower (.bytes #[0x01]), .count,
    .put "0x00000000000000000000000000000000000000cc" (.bytes #[0x02])]

/-- The code that was deployed is found under the other text, is not replaced,
    and requests on `slot` do not notice the one on its neighbour. -/
theorem write_once_contended :
    Address.ofText? slotTextLower = some slot ∧
    answerAfter cancunTerms [] (.get slotTextLower) = .code none ∧
    answerAfter cancunTerms (contended.take 1) .count = .count 1 ∧
    answerAfter cancunTerms contended (.get slotTextLower) = .code (some #[0x00]) ∧
    answerAfter cancunTerms contended (.has slotTextLower) = .has true ∧
    answersOn cancunTerms .empty slot (contended.filter (·.isOn slot)) =
      answersOn cancunTerms .empty slot contended := by
  have hslot : Address.ofText? slotText = some slot := by decide +kernel
  have hbytes : (Payload.hex "0x00").bytes? = some #[0x00] := by decide +kernel
  have hsize : ¬Oversized cancunTerms 1 := by decide +kernel
  have hverdict : ∃ report, verdict cancunTerms #[0x00] = .ok report := by
    obtain ⟨s, hs⟩ : ∃ s, (Analysis.walk cancunTerms.rules false (.ofBytes #[0x00])).run
        .start = .ok s := Walk.exists_run_eq_ok 3 (by decide +kernel)
    exact ⟨_, Walk.report_of_run_eq_ok hs⟩
  -- the first request is a write
  have hdeployed : answerAfter cancunTerms [] (.deploy slotText (.hex "0x00")) =
      .deployed ⟨slot, 1⟩ := by
    rw [answerAfter, perform_deploy hslot hbytes]
    exact deploys_deploy.lawful.deployed.2 ⟨hsize, hverdict, rfl⟩
  have hwrites : writes cancunTerms (contended.take 1) = [⟨slotText, #[0x00]⟩] := by
    refine (writes_concat [] _).trans ?_
    rw [hdeployed, Request.written?, hbytes]
    rfl
  have hcase : slotText.toLower = slotTextLower.toLower := by
    apply String.toList_inj.1
    rw [Text.toList_toLower, Text.toList_toLower]
    decide +kernel
  obtain ⟨hwritten, hsame, hlaw⟩ := write_once cancunTerms
  have hlower : Address.IsWritten slotTextLower := (hwritten _).1 ⟨slot, by decide +kernel⟩
  have hfirst : firstWrite? cancunTerms (contended.take 1) slotTextLower = some #[0x00] := by
    rw [firstWrite?, hwrites, List.find?_singleton, beq_iff_eq.2 hcase]
    rfl
  have hlasting : firstWrite? cancunTerms contended slotTextLower = some #[0x00] :=
    (hlaw (contended.take 1)).lasting slotTextLower #[0x00] (contended.drop 1) hfirst
  refine ⟨?_, (hlaw []).get _ hlower, ?_, ?_, ?_, ?_⟩
  · exact (hsame slotText slotTextLower slot hslot hlower).2 hcase
  · rw [(hlaw (contended.take 1)).count, hwrites, List.map_singleton, (List.nodup_singleton _).dedup,
      List.length_singleton]
  · rw [(hlaw contended).get _ hlower, hlasting]
  · rw [(hlaw contended).has _ hlower, hlasting]
    rfl
  · exact (hlaw contended).isolated slot _ fun _ h => h

end Deployment

end EvmFlow
