import EvmFlow.Analysis
import EvmFlow.Registry

/-!
# Deployment

Code is deployed in three steps: its size is checked, if the rules limit it;
the walk must accept it; and the address must not have code yet. Nothing is
stored unless all three succeed.

* `Deployment.deploy` deploys code at an address;
* `Deployment.perform` answers a request, in which addresses and code may be
  given as text, and `Deployment.serve` a sequence of them.
-/

namespace EvmFlow.Deployment

/-- Why code was not deployed. -/
inductive Failure
  /-- The code has more bytes than the rules allow. -/
  | sizeLimitExceeded (address : Address) (size : Nat) (limit : Int)
  /-- The walk found a violation. -/
  | rejected (address : Address) (reason : Violation)
  /-- The address has code. -/
  | alreadyDeployed (address : Address)
  deriving DecidableEq, Repr

/-- What is deployed: where, and how many bytes. -/
structure Receipt where
  address : Address
  size : Nat
  deriving DecidableEq, Repr

/-- The conditions of deployment: the rules, and whether paths must not run off
    the end of the code. -/
structure Terms where
  rules : Rules
  strictEnd : Bool

variable (terms : Terms)

/-- The code is larger than the rules allow. -/
def isOversized (size : Nat) : Bool :=
  terms.rules.limitsCodeSize && decide (terms.rules.maxCodeSize < size)

/-- Deploys code at an address. -/
def deploy (registry : Registry) (address : Address) (bytes : Array UInt8) :
    Registry × Logged (Except Failure Receipt) :=
  if isOversized terms bytes.size then
    (registry, ⟨.error (.sizeLimitExceeded address bytes.size terms.rules.maxCodeSize), []⟩)
  else
    let place : List (String × Log.Value) := [("address", .text address.toText)]
    let analysis := Analysis.analyze terms.rules terms.strictEnd (.ofBytes bytes)
    let records := analysis.records.map (·.annotate place)
    match analysis.result with
    | .error v =>
      (registry, ⟨.error (.rejected address v),
        records ++ [⟨.warning, ["code creation aborted", v.message], place⟩]⟩)
    | .ok _ =>
      match registry.put? address bytes with
      | none => (registry, ⟨.error (.alreadyDeployed address), records⟩)
      | some registry =>
        (registry, ⟨.ok ⟨address, bytes.size⟩, records ++ [⟨.info, ["code deployed"], place⟩]⟩)

/-! ## Requests -/

/-- Code as it comes with a request. -/
inductive Payload
  /-- Hexadecimal text. -/
  | hex (text : String)
  /-- Bytes. -/
  | bytes (bytes : Array UInt8)

/-- The bytes of a payload, none if its text writes no code. -/
def Payload.bytes? : Payload → Option (Array UInt8)
  | hex text => (Code.ofHex? text).map (·.bytes)
  | bytes b => some b

/-- A request. Addresses are given as text. -/
inductive Request
  /-- Deploy code at an address. -/
  | deploy (address : String) (code : Payload)
  /-- Store code at an address without checking it. -/
  | put (address : String) (code : Payload)
  /-- The code at an address. -/
  | get (address : String)
  /-- Whether there is code at an address. -/
  | has (address : String)
  /-- The number of addresses with code. -/
  | count

/-- The answer to a request. -/
inductive Response
  | deployed (receipt : Receipt)
  | stored
  | code (bytes : Option (Array UInt8))
  | has (answer : Bool)
  | count (n : Nat)
  | failed (failure : Failure)
  | malformedAddress (text : String)
  | malformedCode
  deriving DecidableEq, Repr

/-- The answer for the address that a text writes, if it writes one. -/
def withAddress (registry : Registry) (text : String)
    (answer : Address → Registry × Logged Response) : Registry × Logged Response :=
  match Address.ofText? text with
  | none => (registry, ⟨.malformedAddress text, []⟩)
  | some address => answer address

/-- Answers a request. The address is read first, then the code. -/
def perform (registry : Registry) : Request → Registry × Logged Response
  | .deploy text payload =>
    withAddress registry text fun address =>
      match payload.bytes? with
      | none => (registry, ⟨.malformedCode, []⟩)
      | some bytes =>
        match deploy terms registry address bytes with
        | (registry, ⟨.ok receipt, records⟩) => (registry, ⟨.deployed receipt, records⟩)
        | (registry, ⟨.error failure, records⟩) => (registry, ⟨.failed failure, records⟩)
  | .put text payload =>
    withAddress registry text fun address =>
      match payload.bytes? with
      | none => (registry, ⟨.malformedCode, []⟩)
      | some bytes =>
        match registry.put? address bytes with
        | none => (registry, ⟨.failed (.alreadyDeployed address), []⟩)
        | some registry => (registry, ⟨.stored, []⟩)
  | .get text =>
    withAddress registry text fun address =>
      (registry, ⟨.code (registry.get? address), []⟩)
  | .has text =>
    withAddress registry text fun address =>
      (registry, ⟨.has (registry.contains address), []⟩)
  | .count => (registry, ⟨.count registry.count, []⟩)

/-- Answers a sequence of requests. Each answer comes with the number of
    addresses that have code after it. -/
def serve (registry : Registry) : (requests : List Request) → List (Logged Response × Nat)
  | [] => []
  | request :: requests =>
    let (registry, answer) := perform terms registry request
    (answer, registry.count) :: serve registry requests

end EvmFlow.Deployment
