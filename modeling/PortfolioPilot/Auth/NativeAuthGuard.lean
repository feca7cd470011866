/-
# `Auth.NativeAuthGuard` — `native.auth.guard.ts`

One guard object and the requests it is checking.  `canActivate` is an `async` method
with one `await`, of `authServer.validate`: it runs without interruption up to the
`await`, and from there to its end, and anything else may run in between.  So a check is
two steps, `canActivate` and `validated`, and a run of the guard is any interleaving of
the steps of any number of checks.

`validate` depends on the token it is given and on nothing else; it and `isLocalhost`,
which come with packages, are parameters.  The texts of the response headers are not
modelled beyond what they are set to.
-/
import PortfolioPilot.Lib.Trace
import Mathlib.Logic.Function.Basic

namespace PortfolioPilot

namespace Auth

/-! ## Data -/

/-- What the guard reads of the result of `validate`. -/
structure UserInfo where
  issued : Nat
  expires : Nat
  address : String
  signerAddress : String
  origin : String
  deriving DecidableEq, Repr

/-- The headers the guard reads; `none` is `undefined`. -/
structure Headers where
  impersonateAddress : Option String
  authorization : Option String
  origin : Option String
  deriving DecidableEq, Repr

/-- The `X-Native-Auth-` headers set on the response. -/
structure ResponseHeaders where
  issued : Option Nat
  expires : Option Nat
  address : Option String
  timestamp : Option Nat
  deriving DecidableEq, Repr

inductive Thrown where
  /-- `UnauthorizedException` -/
  | unauthorized
  /-- a header read of `undefined` -/
  | typeError
  deriving DecidableEq, Repr

/-- How far the check of a request has got. -/
inductive Progress where
  | validating (jwt : String)
  | threw (error : Thrown)
  | returned (activated : Bool)
  deriving DecidableEq, Repr

/-- `req`, with the progress of its check. -/
structure Request where
  headers : Option Headers
  res : ResponseHeaders
  auth : Option UserInfo
  jwt : Option UserInfo
  progress : Progress
  deriving DecidableEq, Repr

inductive LogEntry where
  | unhandledAuthOrigin (origin : Option String) (userInfo : UserInfo)
  | error (message : String)
  deriving DecidableEq, Repr

/-- What the guard is given: the server, `UrlUtils.isLocalhost` and the configured admins.
What is thrown is its message. -/
structure Environment where
  validate : String → Except String UserInfo
  isLocalhost : Option String → Except String Bool
  admins : List String

/-- The guard: its field, the requests whose check has begun, and what it has logged. -/
structure Guard where
  impersonateAddress : Option String
  requests : Nat → Option Request
  log : List LogEntry

/-- `new NativeAuthGuard(..)` -/
def Guard.new : Guard := ⟨none, fun _ => none, []⟩

def Guard.put (g : Guard) (i : Nat) (req : Request) : Guard :=
  { g with requests := Function.update g.requests i (some req) }

/-! ## Before the `await` -/

/-- A string is truthy unless it is `undefined` or empty. -/
def truthy : Option String → Bool
  | some a => a != ""
  | none => false

/-- `replace(pattern, '')`: the first occurrence is taken out. -/
def removeFirst (pattern : List Char) : List Char → List Char
  | [] => []
  | c :: cs =>
      if pattern.isPrefixOf (c :: cs) then (c :: cs).drop pattern.length
      else c :: removeFirst pattern cs

/-- `authorization.replace('Bearer ', '')` -/
def bearerToken (authorization : String) : String :=
  String.ofList (removeFirst "Bearer ".toList authorization.toList)

/-- The token of a request. -/
def Headers.token (h : Headers) : String := bearerToken (h.authorization.getD "")

/-- A request that arrives, at the point of its check given by `progress`. -/
def Request.arrived (headers : Option Headers) (progress : Progress) : Request where
  headers := headers
  res := ⟨none, none, none, none⟩
  auth := none
  jwt := none
  progress := progress

/-- `if (!authorization) throw ..`, and the `await` that follows. -/
def Headers.authorize (h : Headers) : Progress :=
  if truthy h.authorization then .validating h.token else .threw .unauthorized

/-- `canActivate` up to the `await`. -/
def Guard.canActivate (g : Guard) (i : Nat) (headers : Option Headers) : Guard :=
  match headers with
  | none => g.put i (.arrived headers (.threw .typeError))
  | some h =>
      -- the field is written whether or not there is such a header, and before the
      -- authorization is looked at
      let g := { g with impersonateAddress := h.impersonateAddress }
      g.put i (.arrived headers h.authorize)

/-! ## After the `await` -/

/-- The test for `Unhandled auth origin: `. -/
def Environment.unhandledOrigin (E : Environment) (origin : Option String) (userInfo : UserInfo) :
    Except String Bool := do
  let isLocalhost ← E.isLocalhost origin
  return !isLocalhost && origin != some userInfo.origin &&
    origin != some ("https://" ++ userInfo.origin)

/-- The address to impersonate.  `find` gives the admin it finds, which is truthy unless it
is the empty string. -/
def Environment.impersonated (E : Environment) (impersonateAddress : Option String)
    (userInfo : UserInfo) : Option String :=
  if truthy impersonateAddress &&
      truthy (E.admins.find? fun admin => admin == userInfo.signerAddress) then
    impersonateAddress
  else none

/-- `req.auth` and `req.jwt` are one object, so that an assignment to the address of one is
an assignment to that of the other. -/
def Request.accept (req : Request) (userInfo : UserInfo) (timestamp : Nat)
    (impersonated : Option String) : Request :=
  let address := impersonated.getD userInfo.address
  { req with
    res := ⟨some userInfo.issued, some userInfo.expires, some address, some timestamp⟩
    auth := some { userInfo with address }
    jwt := some { userInfo with address }
    progress := .returned true }

/-- What the `catch` does. -/
def Guard.refuse (g : Guard) (i : Nat) (req : Request) (message : String) : Guard :=
  { g.put i { req with progress := .returned false } with
    log := g.log ++ [.error ("NativeAuthGuard: " ++ message)] }

/-- The `try` block once the token is valid. -/
def Guard.proceed (E : Environment) (g : Guard) (i : Nat) (req : Request) (origin : Option String)
    (now : Nat) (userInfo : UserInfo) : Guard :=
  match E.unhandledOrigin origin userInfo with
  | .error message => g.refuse i req message
  | .ok unhandled =>
      let g := if unhandled then
          { g with log := g.log ++ [.unhandledAuthOrigin origin userInfo] }
        else g
      g.put i (req.accept userInfo now (E.impersonated g.impersonateAddress userInfo))

/-- `canActivate` from the `await` on, of a request that came with `origin`; the time is in
seconds. -/
def Guard.validated (E : Environment) (g : Guard) (i : Nat) (req : Request) (jwt : String)
    (origin : Option String) (now : Nat) : Guard :=
  match E.validate jwt with
  | .error message => g.refuse i req message
  | .ok userInfo => g.proceed E i req origin now userInfo

/-! ## Runs -/

inductive Label where
  | canActivate (i : Nat) (headers : Option Headers)
  | validated (i : Nat) (now : Nat)
  deriving DecidableEq, Repr

/-- One uninterrupted piece of a check. -/
inductive Step (E : Environment) : Guard → Label → Guard → Prop
  | canActivate {g : Guard} {i : Nat} {headers : Option Headers} :
      g.requests i = none → Step E g (.canActivate i headers) (g.canActivate i headers)
  | validated {g : Guard} {i now : Nat} {req : Request} {h : Headers} {jwt : String} :
      g.requests i = some req → req.headers = some h → req.progress = .validating jwt →
      Step E g (.validated i now) (g.validated E i req jwt h.origin now)

/-- A run of a guard, with the steps it took. -/
abbrev Run (E : Environment) (h : List (Entry Guard Label)) (g : Guard) : Prop :=
  Trace (Step E) Guard.new h g

end Auth

end PortfolioPilot
