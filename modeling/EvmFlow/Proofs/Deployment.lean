import EvmFlow.Deployment
import EvmFlow.Proofs.Termination

/-!
# Runs of requests

Requests are answered one after the other, each with the registry that the
ones before it left behind (`Deployment.after`). A request either leaves the
registry as it is, or stores code at an address that had none
(`Deployment.Performs`).

Deploying code passes three checks in a fixed order: its size, the walk, and
whether the address is free. The answer tells which one failed first, and only
if none does is the code stored (`Deployment.Lawful`). So if nothing was stored
but by deployment, all code in the registry passed the first two checks
(`Deployment.Sound`).

* `Deployment.deployment_law`: the law of deployment, over all runs of requests
  from the empty registry.
-/

namespace EvmFlow

namespace Registry

variable {r s : Registry} {address : Address} {bytes : Array UInt8}

/-- Nothing is stored where there is code. -/
theorem put?_eq_none_iff : r.put? address bytes = none ↔ r.contains address = true := by
  rw [put?]
  split
  · next h => exact iff_of_true rfl h
  · next h => exact iff_of_false (Option.some_ne_none _) h

theorem contains_of_put? (h : r.put? address bytes = some s) : r.contains address = false :=
  Bool.eq_false_iff.2 fun hcontains => by
    cases h.symm.trans (put?_eq_none_iff.2 hcontains)

end Registry

namespace Deployment

variable (terms : Terms)

/-- The size of the code is limited, and the code is larger. -/
def Oversized (size : Nat) : Prop :=
  terms.rules.limitsCodeSize = true ∧ terms.rules.maxCodeSize < size

instance (size : Nat) : Decidable (Oversized terms size) := inferInstanceAs (Decidable (_ ∧ _))

/-- What the walk says of the bytes of a deployment. -/
def verdict (bytes : Array UInt8) : Except Violation Report :=
  (Analysis.walk terms.rules terms.strictEnd (.ofBytes bytes)).report

/-- The registry after a sequence of requests. -/
def after (registry : Registry) (requests : List Request) : Registry :=
  requests.foldl (fun registry request => (perform terms registry request).1) registry

/-- The answer to a request that comes after others, which started with the
    empty registry. -/
def answerAfter (history : List Request) (request : Request) : Response :=
  (perform terms (after terms .empty history) request).2.result

/-- The answers that say that code was stored. -/
def Response.IsWrite : Response → Prop
  | deployed _ | stored => True
  | code _ | has _ | count _ | failed _ | malformedAddress _ | malformedCode => False

/-- The answers that say that a request failed. -/
def Response.IsFailure : Response → Prop
  | failed _ | malformedAddress _ | malformedCode => True
  | deployed _ | stored | code _ | has _ | count _ => False

/-- The answer that a deployment of `bytes` at `address` gets if it finds the
    registry `r` and leaves `r'` behind. -/
structure Lawful (r r' : Registry) (address : Address) (bytes : Array UInt8)
    (answer : Response) : Prop where
  /-- The size is checked first. -/
  oversized : answer = .failed (.sizeLimitExceeded address bytes.size terms.rules.maxCodeSize) ↔
    Oversized terms bytes.size
  /-- Then the walk must accept the code. -/
  rejected (v : Violation) : answer = .failed (.rejected address v) ↔
    ¬Oversized terms bytes.size ∧ verdict terms bytes = .error v
  /-- Then there must be no code at the address. -/
  occupied : answer = .failed (.alreadyDeployed address) ↔
    ¬Oversized terms bytes.size ∧ (∃ report, verdict terms bytes = .ok report) ∧
      r.contains address = true
  /-- Otherwise the code is deployed. -/
  deployed : answer = .deployed ⟨address, bytes.size⟩ ↔
    ¬Oversized terms bytes.size ∧ (∃ report, verdict terms bytes = .ok report) ∧
      r.contains address = false
  /-- Code that is deployed is stored, and nothing else is. -/
  get? : answer = .deployed ⟨address, bytes.size⟩ →
    ∀ a, r'.get? a = if a = address then some bytes else r.get? a
  /-- Code that is not deployed is not stored. -/
  unchanged : answer ≠ .deployed ⟨address, bytes.size⟩ → r' = r

/-- All code in the registry is of allowed size and accepted by the walk. -/
def Sound (r : Registry) : Prop :=
  ∀ address bytes, r.get? address = some bytes →
    ¬Oversized terms bytes.size ∧ ∃ report, verdict terms bytes = .ok report

variable {terms} {r : Registry} {address : Address} {bytes : Array UInt8} {text : String}
  {payload : Payload}

/-! ## One request -/

theorem isOversized_iff {size : Nat} : isOversized terms size = true ↔ Oversized terms size := by
  rw [isOversized, Bool.and_eq_true, decide_eq_true_iff]
  rfl

variable (terms r address bytes) in
/-- What comes of deploying code: the result, and the registry left behind. -/
inductive Deploys : Except Failure Receipt → Registry → Prop
  | oversized : Oversized terms bytes.size →
      Deploys (.error (.sizeLimitExceeded address bytes.size terms.rules.maxCodeSize)) r
  | rejected {v : Violation} : ¬Oversized terms bytes.size → verdict terms bytes = .error v →
      Deploys (.error (.rejected address v)) r
  | occupied {report : Report} : ¬Oversized terms bytes.size → verdict terms bytes = .ok report →
      r.contains address = true → Deploys (.error (.alreadyDeployed address)) r
  | stored {report : Report} {s : Registry} : ¬Oversized terms bytes.size →
      verdict terms bytes = .ok report → r.put? address bytes = some s →
      Deploys (.ok ⟨address, bytes.size⟩) s

theorem deploys_deploy : Deploys terms r address bytes
    (deploy terms r address bytes).2.result (deploy terms r address bytes).1 := by
  rw [deploy]
  split
  · next hsize => exact .oversized (isOversized_iff.1 hsize)
  · next hsize =>
    have hsize : ¬Oversized terms bytes.size := fun h => hsize (isOversized_iff.2 h)
    simp only
    split
    · next v hv => exact .rejected hsize hv
    · next report hreport =>
      split
      · next hnone => exact .occupied hsize hreport (Registry.put?_eq_none_iff.1 hnone)
      · next s hsome => exact .stored hsize hreport hsome

/-- The answer that tells the result of a deployment. -/
def Response.ofResult : Except Failure Receipt → Response
  | .ok receipt => .deployed receipt
  | .error failure => .failed failure

theorem Deploys.lawful {result : Except Failure Receipt} {r' : Registry}
    (h : Deploys terms r address bytes result r') :
    Lawful terms r r' address bytes (.ofResult result) := by
  -- each case decides all three checks, and so all fields of the law
  cases h with
  | oversized hsize => constructor <;> simp [Response.ofResult, hsize]
  | rejected hsize hv => constructor <;> simp [Response.ofResult, hsize, hv]
  | occupied hsize hreport hcontains =>
    constructor <;> simp [Response.ofResult, hsize, hreport, hcontains]
  | stored hsize hreport hput =>
    have hcontains := Registry.contains_of_put? hput
    have hget := Registry.get?_of_put? hput
    constructor <;> simp [Response.ofResult, hsize, hreport, hcontains, hget]

theorem perform_deploy (ha : Address.ofText? text = some address)
    (hb : payload.bytes? = some bytes) : perform terms r (.deploy text payload) =
      ((deploy terms r address bytes).1, ⟨.ofResult (deploy terms r address bytes).2.result,
        (deploy terms r address bytes).2.records⟩) := by
  simp only [perform, withAddress, ha, hb]
  obtain ⟨r', result, records⟩ := deploy terms r address bytes
  cases result with
  | ok receipt => rfl
  | error failure => rfl

variable (terms r) in
/-- What a request can do: leave the registry as it is, or store code where
    there was none, which was put there or passed the checks of a deployment. -/
inductive Performs : Response → Registry → Prop
  | unchanged {answer : Response} : ¬answer.IsWrite → Performs answer r
  | put {address : Address} {bytes : Array UInt8} {s : Registry} :
      r.put? address bytes = some s → Performs .stored s
  | deploy {address : Address} {bytes : Array UInt8} {report : Report} {s : Registry} :
      ¬Oversized terms bytes.size → verdict terms bytes = .ok report →
      r.put? address bytes = some s → Performs (.deployed ⟨address, bytes.size⟩) s

theorem performs_withAddress {answer : Address → Registry × Logged Response}
    (h : ∀ address, Performs terms r (answer address).2.result (answer address).1) :
    Performs terms r (withAddress r text answer).2.result (withAddress r text answer).1 := by
  rw [withAddress]
  split
  · exact .unchanged id
  · exact h _

theorem Deploys.performs {result : Except Failure Receipt} {s : Registry}
    (h : Deploys terms r address bytes result s) : Performs terms r (.ofResult result) s := by
  cases h with
  | oversized => exact .unchanged id
  | rejected => exact .unchanged id
  | occupied => exact .unchanged id
  | stored hsize hreport hput => exact .deploy hsize hreport hput

theorem performs_perform (request : Request) :
    Performs terms r (perform terms r request).2.result (perform terms r request).1 := by
  cases request with
  | deploy text payload =>
    -- only with an address and code is there something to deploy
    cases hb : payload.bytes? with
    | none =>
      refine performs_withAddress fun address => ?_
      simp only [hb]
      exact .unchanged id
    | some bytes =>
      cases ha : Address.ofText? text with
      | none =>
        simp only [perform, withAddress, ha]
        exact .unchanged id
      | some address =>
        rw [perform_deploy ha hb]
        exact deploys_deploy.performs
  | put text payload =>
    refine performs_withAddress fun address => ?_
    split
    · exact .unchanged id
    · next bytes _ =>
      split
      · exact .unchanged id
      · next s hput => exact .put hput
  | get text => exact performs_withAddress fun _ => .unchanged id
  | has text => exact performs_withAddress fun _ => .unchanged id
  | count => exact .unchanged id

/-- A request that fails leaves the registry as it is. -/
theorem Performs.eq_of_isFailure {answer : Response} {s : Registry}
    (h : Performs terms r answer s) (hfailure : answer.IsFailure) : s = r := by
  cases h with
  | unchanged => rfl
  | put => exact hfailure.elim
  | deploy => exact hfailure.elim

/-- Only storing code without checking it can make a registry unsound. -/
theorem Performs.sound {answer : Response} {s : Registry} (h : Performs terms r answer s)
    (hstored : answer ≠ .stored) (hr : Sound terms r) : Sound terms s := by
  cases h with
  | unchanged => exact hr
  | put => exact absurd rfl hstored
  | deploy hsize hreport hput =>
    -- what is stored now was checked, or was stored before
    intro a code hcode
    rw [Registry.get?_of_put? hput] at hcode
    split at hcode
    · cases hcode
      exact ⟨hsize, _, hreport⟩
    · exact hr a code hcode

/-! ## Sequences of requests -/

theorem after_concat (history : List Request) (request : Request) :
    after terms r (history ++ [request]) =
      (perform terms (after terms r history) request).1 := by
  rw [after, List.foldl_append]
  rfl

theorem serve_cons (request : Request) (requests : List Request) :
    serve terms r (request :: requests) =
      ((perform terms r request).2, (perform terms r request).1.count) ::
        serve terms (perform terms r request).1 requests :=
  rfl

/-- Requests are answered with the registry that the ones before left behind. -/
theorem serve_append (history requests : List Request) :
    serve terms r (history ++ requests) =
      serve terms r history ++ serve terms (after terms r history) requests := by
  induction history generalizing r with
  | nil => rfl
  | cons request history ih =>
    rw [List.cons_append, serve_cons, serve_cons, ih]
    rfl

@[simp] theorem length_serve (requests : List Request) :
    (serve terms r requests).length = requests.length := by
  induction requests generalizing r with
  | nil => rfl
  | cons request requests ih => rw [serve_cons, List.length_cons, ih, List.length_cons]

/-- A registry stays sound if nothing is stored without checking it. -/
theorem sound_after (requests : List Request) (hr : Sound terms r)
    (hstored : ∀ answer ∈ serve terms r requests, answer.1.result ≠ .stored) :
    Sound terms (after terms r requests) := by
  -- the first request leaves a sound registry for the others
  induction requests generalizing r with
  | nil => exact hr
  | cons request requests ih =>
    rw [serve_cons, List.forall_mem_cons] at hstored
    exact ih ((performs_perform request).sound hstored.1 hr) hstored.2

/-- The law of deployment, for the requests that come after `history`, which
    starts with the empty registry. -/
theorem deployment_law (terms : Terms) (history : List Request) :
    (∀ request rest, (serve terms .empty (history ++ request :: rest))[history.length]?.map
        (·.1.result) = some (answerAfter terms history request)) ∧
    (∀ text payload address bytes, Address.ofText? text = some address →
      payload.bytes? = some bytes →
        Lawful terms (after terms .empty history)
          (after terms .empty (history ++ [.deploy text payload])) address bytes
          (answerAfter terms history (.deploy text payload))) ∧
    (∀ request, (answerAfter terms history request).IsFailure →
      after terms .empty (history ++ [request]) = after terms .empty history) ∧
    ((∀ answer ∈ serve terms .empty history, answer.1.result ≠ .stored) →
      Sound terms (after terms .empty history)) := by
  refine ⟨?_, ?_, ?_, ?_⟩
  · intro request rest
    rw [serve_append, List.getElem?_append_right (Nat.le_of_eq (length_serve history)),
      length_serve, Nat.sub_self, serve_cons]
    rfl
  · intro text payload address bytes ha hb
    rw [after_concat, answerAfter, perform_deploy ha hb]
    exact deploys_deploy.lawful
  · intro request hfailure
    rw [after_concat]
    exact (performs_perform request).eq_of_isFailure hfailure
  · exact sound_after history fun _ _ h => nomatch h

/-- The rules of one hardfork, where paths may run off the end of the code. -/
def cancunTerms : Terms := ⟨.ofHardfork .cancun, false⟩

/-- An address. -/
def slot : Address := ⟨List.replicate 19 0 ++ [0xbb], rfl⟩

/-- A text that writes `slot`. -/
def slotText : String := "0x00000000000000000000000000000000000000BB"

/-- An addition without operands is stored at `slot`. -/
def unchecked : List Request := [.put slotText (.bytes #[0x01])]

/-- Code that stops is deployed where there is none, but not in place of code
    that would not have been accepted. -/
theorem deployment_law_unchecked :
    answerAfter cancunTerms unchecked (.deploy slotText (.hex "0x00")) =
      .failed (.alreadyDeployed slot) ∧
    after cancunTerms .empty (unchecked ++ [.deploy slotText (.hex "0x00")]) =
      after cancunTerms .empty unchecked ∧
    answerAfter cancunTerms [] (.deploy slotText (.hex "0x00")) = .deployed ⟨slot, 1⟩ ∧
    (after cancunTerms .empty [.deploy slotText (.hex "0x00")]).get? slot = some #[0x00] ∧
    Sound cancunTerms (after cancunTerms .empty [.deploy slotText (.hex "0x00")]) := by
  have haddress : Address.ofText? slotText = some slot := by decide +kernel
  have hbytes : (Payload.hex "0x00").bytes? = some #[0x00] := by decide +kernel
  have hsize : ¬Oversized cancunTerms 1 := by decide +kernel
  have hverdict : ∃ report, verdict cancunTerms #[0x00] = .ok report := by
    obtain ⟨s, hs⟩ : ∃ s, (Analysis.walk cancunTerms.rules false (.ofBytes #[0x00])).run
        .start = .ok s := Walk.exists_run_eq_ok 3 (by decide +kernel)
    exact ⟨_, Walk.report_of_run_eq_ok hs⟩
  have hoccupied : (after cancunTerms .empty unchecked).contains slot = true := by decide +kernel
  obtain ⟨-, hlaw, hfailure, -⟩ := deployment_law cancunTerms unchecked
  obtain ⟨-, hfresh, -, -⟩ := deployment_law cancunTerms []
  obtain ⟨-, -, -, hsound⟩ := deployment_law cancunTerms [.deploy slotText (.hex "0x00")]
  have hfailed := (hlaw slotText _ slot _ haddress hbytes).occupied.2 ⟨hsize, hverdict, hoccupied⟩
  have hlawful := hfresh slotText _ slot _ haddress hbytes
  have hdeployed := hlawful.deployed.2 ⟨hsize, hverdict, rfl⟩
  refine ⟨hfailed, hfailure _ (hfailed ▸ trivial), hdeployed, ?_, hsound ?_⟩
  · exact (hlawful.get? hdeployed slot).trans (if_pos rfl)
  · intro answer hanswer
    rw [List.mem_singleton.1 hanswer]
    exact fun h => nomatch hdeployed.symm.trans h

end Deployment
end EvmFlow
