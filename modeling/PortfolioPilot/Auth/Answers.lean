/-
# `Auth.Answers` — every query is answered for its own request

What the answer to a `userPositions` query should be is a function of the headers of its
request and of nothing else (`Environment.answer`): whatever runs in between, whatever the
other fields of the request do to their common `req`, and whoever else is being served, that
is the answer it gets (`queries_answered`), and it can always be brought to it.  The one
exception is an admin with the empty string for an address (`Environment.NamesAdmins`).

The field of `NativeAuthGuard` that mixes up the requests of one guard does no harm here,
because a query has a guard of its own: its guard goes through a run in which no other check
begins, and such a run gives each request its own identity (`identified_alone`).
-/
import PortfolioPilot.Auth.JwtOrNativeAuthGuard
import PortfolioPilot.Auth.Identity

namespace PortfolioPilot

namespace Auth

variable {E : Environment}

/-! ## What the answer should be -/

/-- The answer to a query of a request with these headers. -/
def Environment.answer (E : Environment) : Option Headers → Answer
  | none => .failed .typeError
  | some headers =>
      if truthy headers.authorization then
        match E.validate headers.token with
        | .error _ => .forbidden
        | .ok info =>
            match E.unhandledOrigin headers.origin info with
            | .error _ => .forbidden
            | .ok _ => .positionsOf (E.expected headers info)
      else .failed .unauthorized

/-! ## What one guard makes of a request -/

/-- How far the check of a request is, in terms of the answer it leads to. -/
inductive Judged (E : Environment) (req : Request) : Prop
  | validating {hd : Headers} : req.headers = some hd → truthy hd.authorization = true →
      req.progress = .validating hd.token → req.auth = none → Judged E req
  | threw {error : Thrown} : req.progress = .threw error → req.auth = none →
      E.answer req.headers = .failed error → Judged E req
  | refused : req.progress = .returned false → req.auth = none →
      E.answer req.headers = .forbidden → Judged E req
  | accepted {hd : Headers} {info auth : UserInfo} : req.progress = .returned true →
      req.headers = some hd → E.validate hd.token = .ok info → req.auth = some auth →
      E.answer req.headers = .positionsOf (E.expected hd info) → Judged E req

theorem judged_arrived (E : Environment) (g : Guard) (i : Nat) (headers : Option Headers) :
    ∃ req, (g.canActivate i headers).requests = Function.update g.requests i (some req) ∧
      req.headers = headers ∧ Judged E req := by
  cases headers with
  | none => exact ⟨_, rfl, rfl, .threw rfl rfl rfl⟩
  | some hd =>
      refine ⟨.arrived (some hd) hd.authorize, rfl, rfl, ?_⟩
      by_cases ha : truthy hd.authorization = true
      · exact .validating rfl ha (if_pos ha) rfl
      · exact .threw (if_neg ha) rfl (if_neg ha)

theorem judged_validated (g : Guard) (i now : Nat) {req : Request} {hd : Headers}
    (hhd : req.headers = some hd) (ha : truthy hd.authorization = true) (hauth : req.auth = none) :
    ∃ req', (g.validated E i req hd.token hd.origin now).requests =
        Function.update g.requests i (some req') ∧ req'.headers = some hd ∧ Judged E req' := by
  have hanswer : E.answer req.headers = match E.validate hd.token with
      | .error _ => .forbidden
      | .ok info => match E.unhandledOrigin hd.origin info with
          | .error _ => .forbidden
          | .ok _ => .positionsOf (E.expected hd info) := by
    rw [hhd]
    exact if_pos ha
  unfold Guard.validated
  cases hv : E.validate hd.token with
  | error message =>
      rw [hv] at hanswer
      exact ⟨{ req with progress := .returned false }, rfl, hhd, .refused rfl hauth hanswer⟩
  | ok info =>
      rw [hv] at hanswer
      dsimp only at hanswer ⊢
      unfold Guard.proceed
      cases ho : E.unhandledOrigin hd.origin info with
      | error message =>
          rw [ho] at hanswer
          exact ⟨{ req with progress := .returned false }, rfl, hhd, .refused rfl hauth hanswer⟩
      | ok unhandled =>
          rw [ho] at hanswer
          refine ⟨req.accept info now (E.impersonated g.impersonateAddress info), ?_, hhd,
            .accepted rfl hhd hv rfl hanswer⟩
          cases unhandled with
          | true => rfl
          | false => rfl

/-- In every run of a guard, every check leads to the answer or is on its way. -/
theorem judged_of_run {g : Guard} {h : List (Entry Guard Label)} (t : Run E h g) :
    ∀ i req, g.requests i = some req → Judged E req := by
  refine t.invariant (I := fun g => ∀ i req, g.requests i = some req → Judged E req) ?_ ?_
  · intro i req hreq
    cases hreq
  · intro g l g' ih hs
    have hupdate : ∀ i req', g'.requests = Function.update g.requests i (some req') →
        Judged E req' → ∀ j req, g'.requests j = some req → Judged E req := by
      intro i req' heq hj j req hreq
      rw [heq] at hreq
      by_cases hji : j = i
      · rw [hji, Function.update_self] at hreq
        cases hreq
        exact hj
      · rw [Function.update_of_ne hji] at hreq
        exact ih j req hreq
    cases hs with
    | canActivate _ =>
        obtain ⟨req', heq, _, hj⟩ := judged_arrived E g _ _
        exact hupdate _ req' heq hj
    | @validated i now req hd jwt hreq hhd hp =>
        cases ih i req hreq with
        | validating hhd' ha hp' hauth =>
            cases hhd.symm.trans hhd'
            cases hp.symm.trans hp'
            obtain ⟨req', heq, _, hj⟩ := judged_validated g i now hhd ha hauth
            exact hupdate i req' heq hj
        | threw hp' _ _ => cases hp.symm.trans hp'
        | refused hp' _ _ => cases hp.symm.trans hp'
        | accepted hp' _ _ _ _ => cases hp.symm.trans hp'

/-! ## The guard of one query -/

/-- The guard of the query `i`, of a request with these headers: nothing else is checked on
it. -/
structure OwnGuard (E : Environment) (i : Nat) (headers : Option Headers) (g : Guard) : Prop where
  run : ∃ h, Run E h g ∧ ∀ e ∈ h, ∀ j headers', e.label = .canActivate j headers' → j = i
  request : ∃ req, g.requests i = some req ∧ req.headers = headers

variable {i now : Nat} {headers : Option Headers} {g g' : Guard}

theorem OwnGuard.ask : OwnGuard E i headers (Guard.new.canActivate i headers) := by
  have hs : Step E Guard.new (.canActivate i headers) (Guard.new.canActivate i headers) :=
    .canActivate rfl
  refine ⟨⟨_, Trace.single hs, fun e he j headers' hl => ?_⟩, ?_⟩
  · cases List.mem_singleton.mp he
    cases hl
    rfl
  · obtain ⟨req, hrequests, hheaders, _⟩ := judged_arrived E Guard.new i headers
    exact ⟨req, by rw [hrequests, Function.update_self], hheaders⟩

theorem unwritten_ask (i : Nat) (headers : Option Headers) :
    ((Guard.new.canActivate i headers).requests i).bind Request.auth = none := by
  obtain ⟨_, progress, hrequests, _⟩ := canActivate_spec Guard.new i headers
  rw [hrequests, Function.update_self]
  rfl

theorem OwnGuard.resume (hg : OwnGuard E i headers g) (hs : Step E g (.validated i now) g') :
    OwnGuard E i headers g' := by
  obtain ⟨⟨h, t, halone⟩, req, hreq, hheaders⟩ := hg
  refine ⟨⟨_, t.snoc hs, List.forall_mem_append.mpr ⟨halone, ?_⟩⟩, ?_⟩
  · intro e he j headers' hl
    cases List.mem_singleton.mp he
    cases hl
  · cases hs with
    | @validated _ _ req₀ hd jwt hreq₀ hhd _ =>
        cases hreq.symm.trans hreq₀
        obtain ⟨_, req', hrequests, hheaders', _⟩ := validated_spec E g i req jwt hd.origin now
        exact ⟨req', by rw [hrequests, Function.update_self], hheaders'.trans hheaders⟩

/-- What its check has written to `req.auth` is the identity to answer for. -/
theorem OwnGuard.wrote (hg : OwnGuard E i headers g) (hadmins : E.NamesAdmins) {auth : UserInfo}
    (hauth : (g.requests i).bind Request.auth = some auth) :
    E.answer headers = .positionsOf auth.address := by
  obtain ⟨⟨h, t, halone⟩, req, hreq, rfl⟩ := hg
  rw [hreq, Option.bind_some] at hauth
  cases judged_of_run t i req hreq with
  | validating _ _ _ hnone => cases hauth.symm.trans hnone
  | threw _ hnone _ => cases hauth.symm.trans hnone
  | refused _ hnone _ => cases hauth.symm.trans hnone
  | @accepted hd info auth' hp hhd hv hauth' hanswer =>
      cases hauth.symm.trans hauth'
      have hident := identified_alone t halone hadmins req hreq hp hd info hhd hv
      rw [hauth] at hident
      rw [hanswer, ← Option.some.inj hident]

/-- What its promise settles to. -/
theorem OwnGuard.settled (hg : OwnGuard E i headers g) {canActivate : Except Thrown Bool}
    (hp : g.promise i = some canActivate) :
    match canActivate with
    | .error error => E.answer headers = .failed error
    | .ok false => E.answer headers = .forbidden
    | .ok true => (g.requests i).bind Request.auth ≠ none := by
  obtain ⟨⟨h, t, _⟩, req, hreq, rfl⟩ := hg
  unfold Guard.promise at hp
  rw [hreq, Option.bind_some] at hp ⊢
  cases judged_of_run t i req hreq with
  | validating _ _ hprogress _ =>
      rw [hprogress] at hp
      cases hp
  | threw hprogress _ hanswer =>
      rw [hprogress] at hp
      cases hp
      exact hanswer
  | refused hprogress _ hanswer =>
      rw [hprogress] at hp
      cases hp
      exact hanswer
  | accepted hprogress _ _ hauth _ =>
      rw [hprogress] at hp
      cases hp
      rw [hauth]
      exact Option.some_ne_none _

/-- A check that is not on its way has settled its promise. -/
theorem promise_of_settled {g : Guard} {i : Nat} {req : Request} (hreq : g.requests i = some req)
    (hdone : ∀ jwt, req.progress ≠ .validating jwt) :
    ∃ canActivate, g.promise i = some canActivate := by
  unfold Guard.promise
  rw [hreq, Option.bind_some]
  cases hprogress : req.progress with
  | validating jwt => exact absurd hprogress (hdone jwt)
  | threw error => exact ⟨_, rfl⟩
  | returned activated => exact ⟨_, rfl⟩

/-- The check of a query can go on when its promise is pending, and it is not pending then. -/
theorem OwnGuard.goes_on (hg : OwnGuard E i headers g) (hp : g.promise i = none) :
    ∃ g' canActivate, Step E g (.validated i 0) g' ∧ g'.promise i = some canActivate := by
  obtain ⟨⟨_, t, _⟩, req, hreq, _⟩ := hg
  unfold Guard.promise at hp
  rw [hreq, Option.bind_some] at hp
  cases judged_of_run t i req hreq with
  | threw hprogress _ _ =>
      rw [hprogress] at hp
      cases hp
  | refused hprogress _ _ =>
      rw [hprogress] at hp
      cases hp
  | accepted hprogress _ _ _ _ =>
      rw [hprogress] at hp
      cases hp
  | @validating hd hhd _ hprogress _ =>
      obtain ⟨_, req', hrequests, _, hdone, _⟩ := validated_spec E g i req hd.token hd.origin 0
      have hs : Step E g (.validated i 0) (g.validated E i req hd.token hd.origin 0) :=
        .validated hreq hhd hprogress
      have hafter : (g.validated E i req hd.token hd.origin 0).requests i = some req' := by
        rw [hrequests, Function.update_self]
      obtain ⟨canActivate, hc⟩ := promise_of_settled hafter hdone
      exact ⟨_, canActivate, hs, hc⟩

/-- The `GqlAuthGuard` beside it never decides anything. -/
theorem jwtOrNative_eq (native : Promise Bool) : jwtOrNativeCanActivate native = native := by
  cases native with
  | none => rfl
  | some canActivate =>
      cases canActivate with
      | error error => rfl
      | ok activated => cases activated <;> rfl

/-! ## The server -/

namespace Server

variable {s s' : Server} {h : List (Entry Server Label)}

/-- A query of a request with these headers, on a server with these `req.auth`. -/
structure Handled (E : Environment) (auth : Nat → Option UserInfo) (i : Nat)
    (headers : Option Headers) (q : Query) : Prop where
  guard : OwnGuard E i headers q.guard
  written : (q.guard.requests i).bind Request.auth ≠ none → auth q.request ≠ none
  activated : q.activated = true → (q.guard.requests i).bind Request.auth ≠ none
  answered : ∀ answer, q.answer = some answer → answer = E.answer headers

/-- Every query is handled for its own request, and what stands in `req.auth` is the identity
of the request. -/
structure Invariant (E : Environment) (s : Server) : Prop where
  query : ∀ i q, s.queries i = some q → ∃ headers, s.headers q.request = some headers ∧
    Handled E s.auth i headers q
  auth : ∀ r auth, s.auth r = some auth → ∃ headers, s.headers r = some headers ∧
    E.answer headers = .positionsOf auth.address

theorem Invariant.start : Invariant E Server.start := by
  refine ⟨fun i q hq => ?_, fun r auth hauth => ?_⟩
  · cases hq
  · cases hauth

/-- The queries once the query `i` is put. -/
theorem update_cases {queries : Nat → Option Query} {i j : Nat} {q q' : Query}
    (hq : Function.update queries i (some q) j = some q') :
    (j = i ∧ q' = q) ∨ (j ≠ i ∧ queries j = some q') := by
  by_cases hji : j = i
  · rw [hji, Function.update_self] at hq
    exact Or.inl ⟨hji, (Option.some.inj hq).symm⟩
  · rw [Function.update_of_ne hji] at hq
    exact Or.inr ⟨hji, hq⟩

/-- A step that only puts the query `i`. -/
theorem Invariant.put (hinv : Invariant E s) {i : Nat} {q : Query} {headers : Option Headers}
    (hheaders : s.headers q.request = some headers) (hq : Handled E s.auth i headers q) :
    Invariant E (s.put i q) := by
  refine ⟨fun j q' hq' => ?_, hinv.auth⟩
  rw [put_queries] at hq'
  rcases update_cases hq' with ⟨rfl, rfl⟩ | ⟨_, hold⟩
  · exact ⟨headers, hheaders, hq⟩
  · exact hinv.query j q' hold

theorem Invariant.receive (hinv : Invariant E s) {r : Nat} {headers : Option Headers}
    (hnew : s.headers r = none) : Invariant E (s.receive r headers) := by
  have hkept : ∀ r' headers', s.headers r' = some headers' →
      (s.receive r headers).headers r' = some headers' := by
    intro r' headers' hr'
    have hne : r' ≠ r := by
      rintro rfl
      cases hnew.symm.trans hr'
    rw [receive_headers, Function.update_of_ne hne, hr']
  refine ⟨fun i q hq => ?_, fun r' auth hauth => ?_⟩
  · obtain ⟨headers', hheaders, hhandled⟩ := hinv.query i q hq
    exact ⟨headers', hkept _ _ hheaders, hhandled⟩
  · obtain ⟨headers', hheaders, hanswer⟩ := hinv.auth r' auth hauth
    exact ⟨headers', hkept _ _ hheaders, hanswer⟩

/-- A check that goes on has written nothing yet. -/
theorem pending_of_validated {i now : Nat} {g g' : Guard} {headers : Option Headers}
    (hg : OwnGuard E i headers g) (hs : Auth.Step E g (.validated i now) g') :
    (g.requests i).bind Request.auth = none := by
  obtain ⟨⟨_, t, _⟩, _⟩ := hg
  cases hs with
  | validated hreq _ hp =>
      rw [hreq, Option.bind_some]
      cases judged_of_run t i _ hreq with
      | validating _ _ _ hnone => exact hnone
      | threw _ hnone _ => exact hnone
      | refused _ hnone _ => exact hnone
      | accepted hp' _ _ _ _ => cases hp.symm.trans hp'

/-- What `req.auth` is after the guard of a query has gone on. -/
theorem resume_auth_cases {i : Nat} {q : Query} {g : Guard} {r : Nat} {auth : UserInfo}
    (hauth : (s.resume i q g).auth r = some auth) :
    (r = q.request ∧ (g.requests i).bind Request.auth = some auth) ∨ s.auth r = some auth := by
  rw [resume_auth] at hauth
  cases hw : (g.requests i).bind Request.auth with
  | none =>
      rw [hw] at hauth
      exact Or.inr hauth
  | some auth' =>
      rw [hw] at hauth
      dsimp only at hauth
      by_cases hr : r = q.request
      · rw [hr, Function.update_self] at hauth
        exact Or.inl ⟨hr, hauth⟩
      · rw [Function.update_of_ne hr] at hauth
        exact Or.inr hauth

/-- It is written, and what was written before stays. -/
theorem resume_auth_ne {i : Nat} {q : Query} {g : Guard} {r : Nat}
    (hne : s.auth r ≠ none ∨ (r = q.request ∧ (g.requests i).bind Request.auth ≠ none)) :
    (s.resume i q g).auth r ≠ none := by
  rw [resume_auth]
  cases hw : (g.requests i).bind Request.auth with
  | none => exact hne.elim id fun hwritten => absurd hw hwritten.2
  | some auth =>
      dsimp only
      by_cases hr : r = q.request
      · rw [hr, Function.update_self]
        exact Option.some_ne_none _
      · rw [Function.update_of_ne hr]
        exact hne.elim id fun hwritten => absurd hwritten.1 hr

theorem Invariant.resume (hinv : Invariant E s) (hadmins : E.NamesAdmins) {i now : Nat} {q : Query}
    {g : Guard} (hq : s.queries i = some q) (hs : Auth.Step E q.guard (.validated i now) g) :
    Invariant E (s.resume i q g) := by
  obtain ⟨headers, hheaders, hhandled⟩ := hinv.query i q hq
  have hguard := hhandled.guard.resume hs
  constructor
  · intro j q' hq'
    rw [resume_queries] at hq'
    rcases update_cases hq' with ⟨rfl, rfl⟩ | ⟨_, hold⟩
    · refine ⟨headers, hheaders, hguard, fun hne => resume_auth_ne (Or.inr ⟨rfl, hne⟩), ?_,
        hhandled.answered⟩
      intro hactive
      exact absurd (pending_of_validated hhandled.guard hs) (hhandled.activated hactive)
    · obtain ⟨headers', hheaders', hother⟩ := hinv.query j q' hold
      exact ⟨headers', hheaders', hother.guard,
        fun hne => resume_auth_ne (Or.inl (hother.written hne)), hother.activated, hother.answered⟩
  · intro r auth hauth
    rcases resume_auth_cases hauth with ⟨rfl, hw⟩ | hold
    · exact ⟨headers, hheaders, hguard.wrote hadmins hw⟩
    · exact hinv.auth r auth hold

theorem Invariant.step (hinv : Invariant E s) (hadmins : E.NamesAdmins) {l : Label}
    (hs : Step E s l s') : Invariant E s' := by
  cases hs with
  | receive hnew => exact hinv.receive hnew
  | ask hheaders _ =>
      refine hinv.put hheaders ⟨.ask, fun hne => ?_, fun hactive => ?_, fun answer hanswer => ?_⟩
      · exact absurd (unwritten_ask _ _) hne
      · cases hactive
      · cases hanswer
  | resume hq hs => exact hinv.resume hadmins hq hs
  | @settle i q canActivate hq hactive hnone hp =>
      obtain ⟨headers, hheaders, hhandled⟩ := hinv.query i q hq
      rw [jwtOrNative_eq] at hp
      have hsettled := hhandled.guard.settled hp
      cases canActivate with
      | error error =>
          refine hinv.put (q := { q with answer := some (.failed error) }) hheaders
            ⟨hhandled.guard, hhandled.written, hhandled.activated, fun answer hanswer => ?_⟩
          cases hanswer
          exact hsettled.symm
      | ok activated =>
          cases activated with
          | false =>
              refine hinv.put (q := { q with answer := some .forbidden }) hheaders
                ⟨hhandled.guard, hhandled.written, hhandled.activated, fun answer hanswer => ?_⟩
              cases hanswer
              exact hsettled.symm
          | true =>
              exact hinv.put (q := { q with activated := true }) hheaders
                ⟨hhandled.guard, hhandled.written, fun _ => hsettled, hhandled.answered⟩
  | @resolve i q hq hactive hnone =>
      obtain ⟨headers, hheaders, hhandled⟩ := hinv.query i q hq
      refine hinv.put (q := { q with answer := _ }) hheaders
        ⟨hhandled.guard, hhandled.written, hhandled.activated, fun answer hanswer => ?_⟩
      cases hauth : s.auth q.request with
      | none => exact absurd hauth (hhandled.written (hhandled.activated hactive))
      | some auth =>
          obtain ⟨headers', hheaders', hidentity⟩ := hinv.auth _ auth hauth
          cases hheaders.symm.trans hheaders'
          rw [hidentity, ← Option.some.inj hanswer, hauth]
          rfl

theorem invariant_of_run (t : Run E h s) (hadmins : E.NamesAdmins) : Invariant E s :=
  t.invariant (I := Invariant E) .start fun _ _ _ hinv hs => hinv.step hadmins hs

/-! ### Every query can be brought to its answer -/

/-- The query that a step works on. -/
def Label.query : Label → Option Nat
  | .receive _ _ => none
  | .ask i _ | .resume i _ | .settle i | .resolve i => some i

/-- From `s` the query `q` can be brought to an answer by work on it alone. -/
def Finishes (E : Environment) (s : Server) (i : Nat) (q : Query) : Prop :=
  ∃ h s' q', Trace (Step E) s h s' ∧ (∀ e ∈ h, e.label.query = some i) ∧
    s'.headers = s.headers ∧ s'.queries i = some q' ∧ q'.request = q.request ∧ q'.answer ≠ none

theorem put_self (s : Server) (i : Nat) (q : Query) : (s.put i q).queries i = some q := by
  rw [put_queries, Function.update_self]

/-- A step of the query after which its work can be finished. -/
theorem Finishes.before {i : Nat} {q q' : Query} {l : Label} (hf : Finishes E s' i q')
    (hs : Step E s l s') (hl : l.query = some i) (hheaders : s'.headers = s.headers)
    (hrequest : q'.request = q.request) : Finishes E s i q := by
  obtain ⟨h, s₁, q₁, t, hown, hheaders₁, hq₁, hrequest₁, hanswer⟩ := hf
  exact ⟨_, s₁, q₁, (Trace.single hs).append t,
    List.forall_mem_append.mpr ⟨List.forall_mem_singleton.mpr hl, hown⟩,
    hheaders₁.trans hheaders, hq₁, hrequest₁.trans hrequest, hanswer⟩

theorem finishes_answered {i : Nat} {q : Query} (hq : s.queries i = some q)
    (hanswer : q.answer ≠ none) : Finishes E s i q :=
  ⟨[], s, q, .nil, fun _ he => absurd he List.not_mem_nil, rfl, hq, rfl, hanswer⟩

theorem finishes_activated {i : Nat} {q : Query} (hq : s.queries i = some q)
    (hactive : q.activated = true) (hnone : q.answer = none) : Finishes E s i q :=
  (finishes_answered (put_self s i _) (Option.some_ne_none _)).before
    (.resolve hq hactive hnone) rfl rfl rfl

theorem finishes_settled {i : Nat} {q : Query} {canActivate : Except Thrown Bool}
    (hq : s.queries i = some q) (hactive : q.activated = false) (hnone : q.answer = none)
    (hp : q.guard.promise i = some canActivate) : Finishes E s i q := by
  have hs : Step E s (.settle i) (s.put i (q.settle canActivate)) := by
    refine .settle hq hactive hnone ?_
    rw [jwtOrNative_eq, hp]
  cases canActivate with
  | error error =>
      exact (finishes_answered (put_self s i _) (Option.some_ne_none _)).before hs rfl rfl rfl
  | ok activated =>
      cases activated with
      | false =>
          exact (finishes_answered (put_self s i _) (Option.some_ne_none _)).before hs rfl rfl rfl
      | true =>
          have hput := put_self s i { q with activated := true }
          exact (finishes_activated hput rfl hnone).before hs rfl rfl rfl

theorem Invariant.finishes (hinv : Invariant E s) {i : Nat} {q : Query}
    (hq : s.queries i = some q) : Finishes E s i q := by
  obtain ⟨headers, _, hhandled⟩ := hinv.query i q hq
  cases hanswer : q.answer with
  | some answer => exact finishes_answered hq (by rw [hanswer]; exact Option.some_ne_none _)
  | none =>
      cases hactive : q.activated with
      | true => exact finishes_activated hq hactive hanswer
      | false =>
          cases hp : q.guard.promise i with
          | some canActivate => exact finishes_settled hq hactive hanswer hp
          | none =>
              obtain ⟨g', canActivate, hs, hp'⟩ := hhandled.guard.goes_on hp
              have hq' : (s.resume i q g').queries i = some { q with guard := g' } := by
                rw [resume_queries, Function.update_self]
              exact (finishes_settled hq' hactive hanswer hp').before (.resume hq hs) rfl rfl rfl

/-- **Every query is answered for its own request.**  In every interleaving of any number of
requests with any number of `userPositions` fields each, a query that is answered has the
answer that follows from the headers of its own request: an error without an authorization, a
refusal when its token is not valid, and otherwise the positions of the address validated
from its own token, or of its own `impersonate-address` header when the signer is an admin.
And from every state that is reached every query can be brought to that answer by steps of
its own.  An admin whose address is the empty string would not impersonate: no token is taken
to be signed by one (`hadmins`). -/
theorem queries_answered (hadmins : E.NamesAdmins) (t : Run E h s) :
    ∀ i q, s.queries i = some q → ∃ headers, s.headers q.request = some headers ∧
      (∀ answer, q.answer = some answer → answer = E.answer headers) ∧
      ∃ h' s' q', Trace (Step E) s h' s' ∧ (∀ e ∈ h', e.label.query = some i) ∧
        s'.queries i = some q' ∧ q'.request = q.request ∧
        q'.answer = some (E.answer headers) := by
  intro i q hq
  have hinv := invariant_of_run t hadmins
  obtain ⟨headers, hheaders, hhandled⟩ := hinv.query i q hq
  refine ⟨headers, hheaders, hhandled.answered, ?_⟩
  obtain ⟨h', s', q', t', hown, hsame, hq', hrequest, hne⟩ := hinv.finishes hq
  obtain ⟨headers', hheaders', hhandled'⟩ :=
    (invariant_of_run (t.append t') hadmins).query i q' hq'
  rw [hsame, hrequest, hheaders] at hheaders'
  cases hheaders'
  obtain ⟨answer, hanswer⟩ := Option.ne_none_iff_exists'.mp hne
  exact ⟨h', s', q', t', hown, hq', hrequest, by rw [hanswer, hhandled'.answered answer hanswer]⟩

theorem sampleEnvironment_namesAdmins : sampleEnvironment.NamesAdmins := by
  intro jwt info _ hadmin hempty
  rw [hempty] at hadmin
  exact absurd hadmin (by decide)

/-- The two requests that a shared guard mixes up: the admin's query is asked, then the
other, and the admin's can still be brought to its own answer. -/
theorem queries_answered_sample : ∃ h s, Run sampleEnvironment h s ∧
    (s.queries 0).isSome ∧ (s.queries 1).isSome ∧
    ∃ h' s' q', Trace (Step sampleEnvironment) s h' s' ∧ s'.queries 0 = some q' ∧
      q'.answer = some (.positionsOf "erd1admin") := by
  let asked₀ := Query.ask 0 0 (some adminHeaders)
  let asked₁ := Query.ask 1 1 (some otherHeaders)
  let s₂ := (Server.start.receive 0 (some adminHeaders)).receive 1 (some otherHeaders)
  have t : Run sampleEnvironment _ ((s₂.put 0 asked₀).put 1 asked₁) :=
    (((Trace.nil.snoc (.receive rfl)).snoc (.receive rfl)).snoc (.ask rfl rfl)).snoc (.ask rfl rfl)
  obtain ⟨headers, hheaders, _, h', s', q', t', _, hq', _, hanswer⟩ :=
    queries_answered sampleEnvironment_namesAdmins t 0 asked₀ rfl
  have hown : headers = some adminHeaders := (Option.some.inj hheaders).symm
  rw [hown] at hanswer
  exact ⟨_, _, t, rfl, rfl, h', s', q', t', hq', hanswer⟩

end Server

end Auth

end PortfolioPilot
