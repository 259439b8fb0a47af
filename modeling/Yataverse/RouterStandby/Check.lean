import Yataverse.Fallible.Rules
import Mathlib.Control.Monad.Basic

/-!
# One check of the router's standby

`router_standby` runs on gad, from a timer. A check reads the router's HTTPS mapping, asks
both gateways for their sites, counts the checks in a row that found the primary unhealthy,
and with `--apply` writes the count to the state file and moves the mapping.

- `routerMapping`, `decide`, `requireCutoverOptIn`, `loadFailures`: the four places that
  refuse.
- `settle`: a check up to the commands that change the mapping.
- `setMapping`: those commands.
- `check`: the state file behind a check, and what the check printed.
- `check_refused`, `check_settled`: a check that is refused leaves the file as it is.
-/

namespace RouterStandby

open Fallible

def publicIp : String := "220.146.170.114"
def xavierIp : String := "192.168.1.28"
def gadIp : String := "192.168.1.16"

/-- `router_standby.py` and `router_standby.cljk` run on one state file. -/
inductive Impl where
  | python
  | kotoba

/-- What `upnpc -l` prints, as the two patterns of `router_mapping` find it: the external
address, and the target and port of each TCP mapping of 8443. -/
structure Listing where
  externalIpAddress : Option String
  mappings : List (String × String)

/-- `router_mapping` -/
def routerMapping (output : Listing) : Except String (Option String) := do
  require (output.externalIpAddress = some publicIp) "router public IPv4 differs from configured address"
  match output.mappings with
  | [] => return none
  | [(target, port)] =>
    require ((target = xavierIp ∨ target = gadIp) ∧ port = "443") "router HTTPS mapping has unexpected owner"
    return some target
  | _ => throw "router has multiple HTTPS mappings"

inductive Action where
  | restorePrimary
  | keepPrimary
  | waitForConfirmation
  | takeOver
  | renewStandby
deriving DecidableEq

/-- `decide` -/
def decide (primaryHealthy standbyHealthy : Bool) (failures : Nat) (mapping : Option String)
    (primaryListenerActive : Bool) : Except String Action :=
  if primaryHealthy then
    .ok (if mapping ≠ some xavierIp then .restorePrimary else .keepPrimary)
  else if failures < 3 then
    .ok .waitForConfirmation
  else if primaryListenerActive then
    .error "primary HTTPS listener is still active; renewal may contend"
  else if standbyHealthy = false then
    .error "standby gateway failed its own content check"
  else
    .ok (if mapping ≠ some gadIp then .takeOver else .renewStandby)

/-- `require_cutover_opt_in` -/
def requireCutoverOptIn (action : Action) (allowed : Bool) : Except String Unit :=
  require (¬ ((action = .restorePrimary ∨ action = .takeOver) ∧ allowed = false))
    "router cutover disabled after 8443 conflict; use --allow-router-cutover only during supervised maintenance"

/-- What the state file holds. -/
inductive StateFile where
  /-- Not JSON. -/
  | unparsed
  /-- No `consecutive-primary-failures` in it. -/
  | keyless
  /-- The key with a value that is no whole number. -/
  | other
  | count (n : Int)
deriving DecidableEq

/-- `load_failures` -/
def loadFailures (impl : Impl) : Option StateFile → Except String Nat
  | none => .ok 0
  | some .unparsed => .error "standby state unreadable"
  | some .keyless =>
    match impl with
    | .python => .error "standby state unreadable"
    | .kotoba => .error "standby state has invalid failure count" -- the value is nil
  | some .other => .error "standby state has invalid failure count"
  | some (.count n) => if n < 0 then .error "standby state has invalid failure count" else .ok n.toNat

/-- `save_failures` -/
def saveFailures (count : Nat) : Option StateFile := some (.count count)

/-! ## The mapping -/

/-- The commands for `upnpc`: `-l`, `-d 8443 TCP` and `-a target 443 8443 TCP 900`. -/
inductive Command where
  | list
  | delete
  | add (target : String)
deriving DecidableEq

/-- How the router answers the last of the commands that a check has sent: with a listing
(read only behind `-l`), or not. -/
abbrev Router := List Command → Except String Listing

/-- Commands that are sent one after the other; what was sent stays sent. -/
abbrev Sending := ExceptT String (StateM (List Command))

def command (router : Router) (c : Command) : Sending Listing :=
  fun sent => (router (sent ++ [c]), sent ++ [c])

/-- `router_mapping` of a new listing. -/
def currentMapping (router : Router) : Sending (Option String) := do
  let output ← command router .list
  ExceptT.mk (pure (routerMapping output))

/-- The mapping for `target`, confirmed by the router. -/
def addMapping (router : Router) (target : String) : Sending Unit := do
  let _ ← command router (.add target)
  let mapping ← currentMapping router
  if mapping ≠ some target then
    throw "router did not confirm new HTTPS mapping"

/-- Puts the mapping back that was there before; a refusal of that is passed over. -/
def putBack (target : String) (current : Option String) : Sending Unit :=
  fun sent => (.ok (), sent ++ (current.toList.filter (· ≠ target)).map Command.add)

/-- The new mapping, or else the old one. -/
def replaceMapping (router : Router) (target : String) (current : Option String) : Sending Unit :=
  tryCatch (addMapping router target) fun e => do
    putBack target current
    throw e

/-- `set_mapping` -/
def setMapping (router : Router) (target : String) (current : Option String) : Sending Unit := do
  if current.isSome ∧ current ≠ some target then
    let _ ← command router .delete
    let mapping ← currentMapping router
    if mapping.isSome then
      throw "router refused to remove old HTTPS mapping"
  replaceMapping router target current

/-! ## The check -/

/-- What a check with `--apply` meets. The router answers `upnpc -l` first; the standby and
the primary's listener are asked only after three failures. -/
structure Check where
  impl : Impl
  router : Router
  primaryHealthy : Bool
  standbyHealthy : Bool
  listenerActive : Bool
  allowRouterCutover : Bool

/-- The mapping that a check reads first. -/
def Check.mapping (c : Check) : Except String (Option String) :=
  (c.router [.list]).bind routerMapping

/-- The failures in a row, this check's included. -/
def Check.failures (c : Check) (file : Option StateFile) : Except String Nat :=
  if c.primaryHealthy then .ok 0 else (loadFailures c.impl file).map (· + 1)

/-- What a check decides. -/
structure Decision where
  mapping : Option String
  failures : Nat
  action : Action

/-- `main` and `check!` up to `save_failures`. -/
def settle (c : Check) (file : Option StateFile) : Except String Decision := do
  let mapping ← c.mapping
  let failures ← c.failures file
  let asked := ¬ c.primaryHealthy ∧ 3 ≤ failures
  let action ← decide c.primaryHealthy (asked ∧ c.standbyHealthy) failures mapping (asked ∧ c.listenerActive)
  requireCutoverOptIn action c.allowRouterCutover
  return ⟨mapping, failures, action⟩

/-- The commands for an action. -/
def carryOut (router : Router) (action : Action) (mapping : Option String) : Sending Unit :=
  match action with
  | .restorePrimary => setMapping router xavierIp mapping
  | .takeOver | .renewStandby => setMapping router gadIp mapping
  | .keepPrimary | .waitForConfirmation => pure ()

/-- What a check printed: its decision, or why it was refused. -/
structure Report where
  decision : Except String Decision
  sent : List Command

/-- `main` and `check!`, with `--apply`: the file behind a check, and what came of it. -/
def check (c : Check) (file : Option StateFile) : Option StateFile × Report :=
  match settle c file with
  | .error e => (file, ⟨.error e, [.list]⟩)
  | .ok d =>
    let r := carryOut c.router d.action d.mapping [.list]
    (saveFailures d.failures, ⟨r.1.map fun _ => d, r.2⟩)

theorem check_refused {c : Check} {file : Option StateFile} {e : String} (h : settle c file = .error e) :
    (check c file).1 = file := by
  rw [check, h]

theorem check_settled {c : Check} {file : Option StateFile} {d : Decision} (h : settle c file = .ok d) :
    (check c file).1 = saveFailures d.failures := by
  rw [check, h]

end RouterStandby
