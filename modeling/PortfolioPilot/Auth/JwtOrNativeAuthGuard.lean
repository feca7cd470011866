/-
# `Auth.JwtOrNativeAuthGuard` — the guarded query `userPositions`

`jwt.or.native.auth.guard.ts`, `gql.auth.guard.ts`, `auth.user.ts` and the resolver they
stand before.  A GraphQL request may ask for `userPositions` in any number of its fields,
and each field is a query of its own: the guard is asked, then the parameters are made, then
the resolver runs.  The queries of a request share its `req`, on which each of them writes
`req.auth`, and the queries of all requests are served at the same time.

`JwtOrNativeAuthGuard` keeps nothing between two queries: it makes a `GqlAuthGuard` and a
`NativeAuthGuard` for each, so what a query has of its own is a guard (`Auth.Guard`) on which
it is the only check.

The `try` around `guard.canActivate(context)` catches nothing: the two methods are `async`,
so what is thrown in them rejects the promise that they have already returned.
-/
import PortfolioPilot.Auth.NativeAuthGuard

namespace PortfolioPilot

namespace Auth

/-! ## The guard -/

/-- A promise: pending, rejected or resolved. -/
abbrev Promise (α : Type) := Option (Except Thrown α)

/-- `GqlAuthGuard.canActivate`: what is left of it is `Promise.resolve(false)`. -/
def gqlCanActivate : Promise Bool := some (.ok false)

/-- `NativeAuthGuard.canActivate` of the check `i` on the guard `g`. -/
def Guard.promise (g : Guard) (i : Nat) : Promise Bool :=
  (g.requests i).bind fun req =>
    match req.progress with
    | .validating _ => none
    | .threw error => some (.error error)
    | .returned activated => some (.ok activated)

/-- `Promise.all`: rejected as soon as one of the promises is, resolved when all are. -/
def promiseAll {α : Type} : List (Promise α) → Promise (List α)
  | [] => some (.ok [])
  | p :: ps =>
      match p, promiseAll ps with
      | some (.error error), _ => some (.error error)
      | _, some (.error error) => some (.error error)
      | some (.ok a), some (.ok as) => some (.ok (a :: as))
      | _, _ => none

/-- `canActivateResponses.reduce((result, value) => result || value, false)` -/
def anyActivated (canActivateResponses : List Bool) : Bool :=
  canActivateResponses.foldl (fun result value => result || value) false

/-- `JwtOrNativeAuthGuard.canActivate`, given the promise of the native guard it has made. -/
def jwtOrNativeCanActivate (native : Promise Bool) : Promise Bool :=
  (promiseAll [gqlCanActivate, native]).map fun responses => responses.map anyActivated

/-! ## The resolver -/

/-- `AuthUser()`, given the root value of the query, which a top-level query has none of, and
`req.auth`. -/
def authUser (root auth : Option UserInfo) : Option UserInfo := root.or auth

/-- How a query ends. -/
inductive Answer where
  /-- the field has this error -/
  | failed (error : Thrown)
  /-- the guard said no -/
  | forbidden
  /-- `smartAccountUser.userPositions(address)` -/
  | positionsOf (address : String)
  deriving DecidableEq, Repr

/-- `SmartAccountPositionsResolver.userPositions`: it reads `user.address`. -/
def userPositions (user : Option UserInfo) : Answer :=
  match user with
  | some user => .positionsOf user.address
  | none => .failed .typeError

/-! ## The server -/

/-- One field `userPositions` of a request: its guard, whether the guard has let it pass, and
its answer. -/
structure Query where
  request : Nat
  guard : Guard
  activated : Bool
  answer : Option Answer

/-- The requests with their headers and their `req.auth`, and the queries. -/
structure Server where
  headers : Nat → Option (Option Headers)
  auth : Nat → Option UserInfo
  queries : Nat → Option Query

def Server.start : Server := ⟨fun _ => none, fun _ => none, fun _ => none⟩

def Server.put (s : Server) (i : Nat) (q : Query) : Server :=
  { s with queries := Function.update s.queries i (some q) }

def Server.receive (s : Server) (r : Nat) (headers : Option Headers) : Server :=
  { s with headers := Function.update s.headers r (some headers) }

/-- The guards are made and asked; the native one runs up to its `await`. -/
def Query.ask (i r : Nat) (headers : Option Headers) : Query where
  request := r
  guard := Guard.new.canActivate i headers
  activated := false
  answer := none

/-- The native guard of the query `i` has gone on to `g`; what it wrote to `req.auth` is on
the request. -/
def Server.resume (s : Server) (i : Nat) (q : Query) (g : Guard) : Server :=
  { s.put i { q with guard := g } with
    auth := match (g.requests i).bind Request.auth with
      | some auth => Function.update s.auth q.request (some auth)
      | none => s.auth }

/-- The promise of the guard has settled. -/
def Query.settle (q : Query) (canActivate : Except Thrown Bool) : Query :=
  match canActivate with
  | .error error => { q with answer := some (.failed error) }
  | .ok false => { q with answer := some .forbidden }
  | .ok true => { q with activated := true }

/-- The parameter of the resolver is made, and the resolver runs. -/
def Server.resolve (s : Server) (i : Nat) (q : Query) : Server :=
  s.put i { q with answer := some (userPositions (authUser none (s.auth q.request))) }

namespace Server

theorem put_queries (s : Server) (i : Nat) (q : Query) :
    (s.put i q).queries = Function.update s.queries i (some q) := rfl

theorem receive_headers (s : Server) (r : Nat) (headers : Option Headers) :
    (s.receive r headers).headers = Function.update s.headers r (some headers) := rfl

theorem resume_queries (s : Server) (i : Nat) (q : Query) (g : Guard) :
    (s.resume i q g).queries = Function.update s.queries i (some { q with guard := g }) := rfl

theorem resume_auth (s : Server) (i : Nat) (q : Query) (g : Guard) :
    (s.resume i q g).auth = match (g.requests i).bind Request.auth with
      | some auth => Function.update s.auth q.request (some auth)
      | none => s.auth := rfl

inductive Label where
  | receive (r : Nat) (headers : Option Headers)
  | ask (i r : Nat)
  | resume (i now : Nat)
  | settle (i : Nat)
  | resolve (i : Nat)
  deriving DecidableEq, Repr

/-- One uninterrupted piece of the work on one query. -/
inductive Step (E : Environment) : Server → Label → Server → Prop
  | receive {s : Server} {r : Nat} {headers : Option Headers} :
      s.headers r = none → Step E s (.receive r headers) (s.receive r headers)
  | ask {s : Server} {i r : Nat} {headers : Option Headers} :
      s.headers r = some headers → s.queries i = none →
      Step E s (.ask i r) (s.put i (.ask i r headers))
  | resume {s : Server} {i now : Nat} {q : Query} {g : Guard} :
      s.queries i = some q → Auth.Step E q.guard (.validated i now) g →
      Step E s (.resume i now) (s.resume i q g)
  | settle {s : Server} {i : Nat} {q : Query} {canActivate : Except Thrown Bool} :
      s.queries i = some q → q.activated = false → q.answer = none →
      jwtOrNativeCanActivate (q.guard.promise i) = some canActivate →
      Step E s (.settle i) (s.put i (q.settle canActivate))
  | resolve {s : Server} {i : Nat} {q : Query} :
      s.queries i = some q → q.activated = true → q.answer = none →
      Step E s (.resolve i) (s.resolve i q)

/-- A run of the server, with the steps it took. -/
abbrev Run (E : Environment) (h : List (Entry Server Label)) (s : Server) : Prop :=
  Trace (Step E) Server.start h s

end Server

end Auth

end PortfolioPilot
