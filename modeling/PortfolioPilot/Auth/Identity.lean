/-
# `Auth.Identity` — whose address an accepted request ends with

The impersonated address is kept in a field of the guard, which `canActivate` writes
before its `await` and reads after it.  So a request ends with the header of whichever
check began last before it resumed (`Known.accepted`), and that is right exactly when this
header has the same effect as its own, or the signer is no admin (`identified_iff`).

A guard that checks one request only, as `JwtOrNativeAuthGuard` makes one for each, has no
other check to take a header from (`identified_alone`).
-/
import PortfolioPilot.Auth.NativeAuthGuard
import Mathlib.Data.List.TakeWhile

namespace PortfolioPilot

namespace Auth

variable {E : Environment} {g g' : Guard} {h : List (Entry Guard Label)}

/-! ## What an accepted request should end with -/

/-- Its own `impersonate-address` header, if it is not empty and the signer of its token is
an admin, and otherwise the address validated from its token. -/
def Environment.expected (E : Environment) (headers : Headers) (info : UserInfo) : String :=
  match headers.impersonateAddress with
  | some a => if a ≠ "" ∧ info.signerAddress ∈ E.admins then a else info.address
  | none => info.address

/-- The request has the address it should have. -/
def Identified (E : Environment) (req : Request) : Prop :=
  ∀ headers info, req.headers = some headers → E.validate headers.token = .ok info →
    req.auth.map UserInfo.address = some (E.expected headers info)

/-! ## The field of the guard -/

/-- The field after a step. -/
def Label.field (field : Option String) : Label → Option String
  | .canActivate _ (some headers) => headers.impersonateAddress
  | .canActivate _ none | .validated _ _ => field

/-- The header of the last check that began. -/
def lastImpersonate (h : List (Entry Guard Label)) : Option String :=
  h.foldl (fun field e => e.label.field field) none

theorem lastImpersonate_concat (h : List (Entry Guard Label)) (e : Entry Guard Label) :
    lastImpersonate (h ++ [e]) = e.label.field (lastImpersonate h) := by
  unfold lastImpersonate
  rw [List.foldl_append]
  rfl

/-- Whether a step is the second half of the check of `i`. -/
def Label.resumes (i : Nat) : Label → Bool
  | .canActivate _ _ => false
  | .validated j _ => j == i

theorem quiet_concat {i : Nat} (hnone : ∀ e ∈ h, e.label.resumes i = false)
    {e : Entry Guard Label} (he : e.label.resumes i = false) :
    ∀ e' ∈ h ++ [e], e'.label.resumes i = false :=
  List.forall_mem_append.mpr ⟨hnone, List.forall_mem_singleton.mpr he⟩

/-- The part of a run before the check of `i` resumed. -/
def beforeResume (i : Nat) (h : List (Entry Guard Label)) : List (Entry Guard Label) :=
  h.takeWhile fun e => !e.label.resumes i

theorem beforeResume_of_pending {i : Nat} (hnone : ∀ e ∈ h, e.label.resumes i = false)
    {e : Entry Guard Label} (he : e.label.resumes i = true) : beforeResume i (h ++ [e]) = h := by
  unfold beforeResume
  rw [List.takeWhile_append_of_pos fun e' he' => by rw [hnone e' he']; rfl]
  rw [List.takeWhile_cons_of_neg (by rw [he]; decide), List.append_nil]

theorem beforeResume_of_resumed {i : Nat} (e : Entry Guard Label) :
    (∃ e' ∈ h, e'.label.resumes i = true) → beforeResume i (h ++ [e]) = beforeResume i h := by
  unfold beforeResume
  induction h with
  | nil =>
      intro hsome
      obtain ⟨e', he', _⟩ := hsome
      exact absurd he' List.not_mem_nil
  | cons e₀ h ih =>
      intro hsome
      rw [List.cons_append]
      by_cases he₀ : e₀.label.resumes i = true
      · rw [List.takeWhile_cons_of_neg (by rw [he₀]; decide),
          List.takeWhile_cons_of_neg (by rw [he₀]; decide)]
      · obtain ⟨e', he', hres⟩ := hsome
        rcases List.mem_cons.mp he' with rfl | he'
        · exact absurd hres he₀
        · rw [List.takeWhile_cons_of_pos (by simpa using he₀),
            List.takeWhile_cons_of_pos (by simpa using he₀), ih ⟨e', he', hres⟩]

/-! ## What a step does -/

/-- The first half of a check writes the field, and ends with no answer. -/
theorem canActivate_spec (g : Guard) (i : Nat) (headers : Option Headers) :
    (g.canActivate i headers).impersonateAddress =
        (Label.canActivate i headers).field g.impersonateAddress ∧
      ∃ progress, (g.canActivate i headers).requests =
          Function.update g.requests i (some (.arrived headers progress)) ∧
        progress ≠ .returned true ∧
        ∀ jwt, progress = .validating jwt → ∃ hd, headers = some hd ∧ jwt = hd.token := by
  cases headers with
  | none =>
      refine ⟨rfl, .threw .typeError, rfl, Progress.noConfusion, fun jwt hp => ?_⟩
      cases hp
  | some hd =>
      refine ⟨rfl, hd.authorize, rfl, ?_, ?_⟩
      · unfold Headers.authorize
        by_cases ha : truthy hd.authorization = true
        · rw [if_pos ha]
          exact Progress.noConfusion
        · rw [if_neg ha]
          exact Progress.noConfusion
      · intro jwt hp
        unfold Headers.authorize at hp
        by_cases ha : truthy hd.authorization = true
        · rw [if_pos ha] at hp
          cases hp
          exact ⟨hd, rfl, rfl⟩
        · rw [if_neg ha] at hp
          cases hp

/-- The second half reads the field, and an accepted request gets its address from it. -/
theorem validated_spec (E : Environment) (g : Guard) (i : Nat) (req : Request) (jwt : String)
    (origin : Option String) (now : Nat) :
    (g.validated E i req jwt origin now).impersonateAddress = g.impersonateAddress ∧
      ∃ req', (g.validated E i req jwt origin now).requests =
          Function.update g.requests i (some req') ∧
        req'.headers = req.headers ∧ (∀ jwt', req'.progress ≠ .validating jwt') ∧
        (req'.progress = .returned true → ∃ info, E.validate jwt = .ok info ∧
          req'.auth = some { info with
            address := (E.impersonated g.impersonateAddress info).getD info.address }) := by
  have hrefuse : ∀ message, (g.refuse i req message).impersonateAddress = g.impersonateAddress ∧
      (g.refuse i req message).requests =
        Function.update g.requests i (some { req with progress := .returned false }) :=
    fun _ => ⟨rfl, rfl⟩
  unfold Guard.validated
  cases E.validate jwt with
  | error message =>
      obtain ⟨hfield, hrequests⟩ := hrefuse message
      refine ⟨hfield, _, hrequests, rfl, fun _ => Progress.noConfusion, fun hp => ?_⟩
      cases hp
  | ok info =>
      show (g.proceed E i req origin now info).impersonateAddress = _ ∧
        ∃ req', (g.proceed E i req origin now info).requests = _ ∧ _
      unfold Guard.proceed
      cases E.unhandledOrigin origin info with
      | error message =>
          obtain ⟨hfield, hrequests⟩ := hrefuse message
          refine ⟨hfield, _, hrequests, rfl, fun _ => Progress.noConfusion, fun hp => ?_⟩
          cases hp
      | ok unhandled =>
          -- whether the origin is logged or not
          cases unhandled with
          | true =>
              exact ⟨rfl, req.accept info now (E.impersonated g.impersonateAddress info), rfl, rfl,
                fun _ => Progress.noConfusion, fun _ => ⟨info, rfl, rfl⟩⟩
          | false =>
              exact ⟨rfl, req.accept info now (E.impersonated g.impersonateAddress info), rfl, rfl,
                fun _ => Progress.noConfusion, fun _ => ⟨info, rfl, rfl⟩⟩

/-! ## What a run knows of its requests -/

/-- A request that is being validated has not resumed; one that was accepted has, and has
the address that the field of the guard gave it then. -/
structure Known (E : Environment) (h : List (Entry Guard Label)) (i : Nat) (req : Request) :
    Prop where
  pending : ∀ jwt, req.progress = .validating jwt →
    (∀ e ∈ h, e.label.resumes i = false) ∧ ∃ hd, req.headers = some hd ∧ jwt = hd.token
  accepted : req.progress = .returned true → (∃ e ∈ h, e.label.resumes i = true) ∧
    ∃ hd info, req.headers = some hd ∧ E.validate hd.token = .ok info ∧
      req.auth = some { info with
        address := (E.impersonated (lastImpersonate (beforeResume i h)) info).getD info.address }

/-- A step of another check changes nothing of this. -/
theorem Known.skip {i : Nat} {req : Request} (hk : Known E h i req) {e : Entry Guard Label}
    (he : e.label.resumes i = false) : Known E (h ++ [e]) i req where
  pending jwt hp := by
    obtain ⟨hnone, hhd⟩ := hk.pending jwt hp
    exact ⟨quiet_concat hnone he, hhd⟩
  accepted hp := by
    obtain ⟨hsome, hauth⟩ := hk.accepted hp
    rw [beforeResume_of_resumed e hsome]
    obtain ⟨e', he', hres⟩ := hsome
    exact ⟨⟨e', List.mem_append_left _ he', hres⟩, hauth⟩

/-- What holds in every run. -/
structure Invariant (E : Environment) (h : List (Entry Guard Label)) (g : Guard) : Prop where
  field : g.impersonateAddress = lastImpersonate h
  absent : ∀ i, g.requests i = none → ∀ e ∈ h, e.label.resumes i = false
  known : ∀ i req, g.requests i = some req → Known E h i req

theorem Invariant.canActivate {i : Nat} {headers : Option Headers} (hinv : Invariant E h g)
    (hnew : g.requests i = none) :
    Invariant E (h ++ [⟨g, .canActivate i headers, g.canActivate i headers⟩])
      (g.canActivate i headers) := by
  obtain ⟨hfield, progress, hrequests, hreturned, hvalidating⟩ := canActivate_spec g i headers
  have hquiet : ∀ j, (Label.canActivate i headers).resumes j = false := fun _ => rfl
  refine ⟨?_, ?_, ?_⟩
  · rw [lastImpersonate_concat, hfield, hinv.field]
  · intro j hj
    rw [hrequests] at hj
    by_cases hji : j = i
    · rw [hji, Function.update_self] at hj
      cases hj
    · rw [Function.update_of_ne hji] at hj
      exact quiet_concat (hinv.absent j hj) (hquiet j)
  · intro j req hj
    rw [hrequests] at hj
    by_cases hji : j = i
    · rw [hji, Function.update_self] at hj
      cases hj
      subst hji
      refine ⟨fun jwt hp => ⟨?_, hvalidating jwt hp⟩, fun hp => absurd hp hreturned⟩
      exact quiet_concat (hinv.absent j hnew) (hquiet j)
    · rw [Function.update_of_ne hji] at hj
      exact (hinv.known j req hj).skip (hquiet j)

theorem Invariant.validated {i now : Nat} {req : Request} {hd : Headers} {jwt : String}
    (hinv : Invariant E h g) (hreq : g.requests i = some req) (hhd : req.headers = some hd)
    (hp : req.progress = .validating jwt) :
    Invariant E (h ++ [⟨g, .validated i now, g.validated E i req jwt hd.origin now⟩])
      (g.validated E i req jwt hd.origin now) := by
  obtain ⟨hfield, req', hrequests, hheaders, hvalidating, hreturned⟩ :=
    validated_spec E g i req jwt hd.origin now
  obtain ⟨hnone, hd', hhd', rfl⟩ := (hinv.known i req hreq).pending jwt hp
  cases hhd.symm.trans hhd'
  have hother : ∀ j, j ≠ i → (Label.validated i now).resumes j = false := fun j hji =>
    beq_false_of_ne (Ne.symm hji)
  have hself : (Label.validated i now).resumes i = true := beq_self_eq_true i
  refine ⟨?_, ?_, ?_⟩
  · rw [lastImpersonate_concat, hfield, hinv.field]
    rfl
  · intro j hj
    rw [hrequests] at hj
    by_cases hji : j = i
    · rw [hji, Function.update_self] at hj
      cases hj
    · rw [Function.update_of_ne hji] at hj
      exact quiet_concat (hinv.absent j hj) (hother j hji)
  · intro j req₁ hj
    rw [hrequests] at hj
    by_cases hji : j = i
    · rw [hji, Function.update_self] at hj
      cases hj
      subst hji
      refine ⟨fun jwt' hp' => absurd hp' (hvalidating jwt'), fun hp' => ?_⟩
      obtain ⟨info, hinfo, hauth⟩ := hreturned hp'
      refine ⟨⟨_, List.mem_append_right _ List.mem_cons_self, hself⟩, hd, info,
        hheaders.trans hhd, hinfo, ?_⟩
      rw [beforeResume_of_pending hnone hself, ← hinv.field]
      exact hauth
    · rw [Function.update_of_ne hji] at hj
      exact (hinv.known j req₁ hj).skip (hother j hji)

theorem invariant_of_run (t : Run E h g) : Invariant E h g := by
  refine t.induct (P := fun _ => True) (I := Invariant E) ?_ ?_ (fun _ _ => trivial)
  · refine ⟨rfl, fun _ _ e he => absurd he List.not_mem_nil, fun i req hreq => ?_⟩
    cases hreq
  · intro h g l g' _ hinv _ hs
    cases hs with
    | canActivate hnew => exact hinv.canActivate hnew
    | validated hreq hhd hp => exact hinv.validated hreq hhd hp

/-! ## When the address is the right one -/

/-- The address of a request whose signer is an admin, under a header. -/
def UserInfo.under (info : UserInfo) (header : Option String) : String :=
  if truthy header then header.getD "" else info.address

/-- With `header` in the field of the guard when it resumes, the request fares as with its
own.  An admin whose configured address is empty never impersonates. -/
def Undisturbed (E : Environment) (req : Request) (header : Option String) : Prop :=
  ∀ hd info, req.headers = some hd → E.validate hd.token = .ok info →
    info.signerAddress ∈ E.admins →
      info.under (if info.signerAddress = "" then none else header) =
        info.under hd.impersonateAddress

theorem find_admin (E : Environment) (info : UserInfo) :
    E.admins.find? (fun admin => admin == info.signerAddress) =
      if info.signerAddress ∈ E.admins then some info.signerAddress else none := by
  cases hf : E.admins.find? (fun admin => admin == info.signerAddress) with
  | none =>
      have hnot : info.signerAddress ∉ E.admins := fun hmem =>
        List.find?_eq_none.mp hf _ hmem (beq_self_eq_true _)
      rw [if_neg hnot]
  | some admin =>
      have hfound : (admin == info.signerAddress) = true := by
        simpa using List.find?_some hf
      rw [← eq_of_beq hfound, if_pos (List.mem_of_find?_eq_some hf)]

/-- The address that the guard gives to a request. -/
theorem impersonated_address (E : Environment) (field : Option String) (info : UserInfo) :
    (E.impersonated field info).getD info.address =
      if info.signerAddress ∈ E.admins then
        info.under (if info.signerAddress = "" then none else field)
      else info.address := by
  unfold Environment.impersonated UserInfo.under
  rw [find_admin]
  by_cases hadmin : info.signerAddress ∈ E.admins
  · rw [if_pos hadmin, if_pos hadmin]
    by_cases hempty : info.signerAddress = ""
    · rw [if_pos hempty, hempty]
      simp [truthy]
    · rw [if_neg hempty]
      cases field with
      | none => rfl
      | some a => by_cases ha : a = "" <;> simp [truthy, ha, hempty]
  · rw [if_neg hadmin, if_neg hadmin]
    simp [truthy]

/-- The address that it should give. -/
theorem expected_address (E : Environment) (hd : Headers) (info : UserInfo) :
    E.expected hd info = if info.signerAddress ∈ E.admins then info.under hd.impersonateAddress
      else info.address := by
  unfold Environment.expected UserInfo.under
  cases hd.impersonateAddress with
  | none => simp [truthy]
  | some a =>
      by_cases ha : a = ""
      · simp [truthy, ha]
      · by_cases hadmin : info.signerAddress ∈ E.admins <;> simp [truthy, ha, hadmin]

/-- What is known of an accepted request says when its address is the right one. -/
theorem Known.undisturbed_iff {i : Nat} {req : Request} (hk : Known E h i req)
    (hacc : req.progress = .returned true) :
    Identified E req ↔ Undisturbed E req (lastImpersonate (beforeResume i h)) := by
  obtain ⟨_, hd, info, hhd, hinfo, hauth⟩ := hk.accepted hacc
  have haddress : req.auth.map UserInfo.address = some
      ((E.impersonated (lastImpersonate (beforeResume i h)) info).getD info.address) := by
    rw [hauth]
    rfl
  rw [impersonated_address] at haddress
  constructor
  · intro hident hd' info' hhd' hinfo' hadmin
    cases hhd.symm.trans hhd'
    cases hinfo.symm.trans hinfo'
    have heq := haddress.symm.trans (hident hd info hhd hinfo)
    rw [expected_address, if_pos hadmin, if_pos hadmin] at heq
    exact Option.some.inj heq
  · intro hsame hd' info' hhd' hinfo'
    cases hhd.symm.trans hhd'
    cases hinfo.symm.trans hinfo'
    rw [haddress, expected_address]
    by_cases hadmin : info.signerAddress ∈ E.admins
    · rw [if_pos hadmin, if_pos hadmin, hsame hd info hhd hinfo hadmin]
    · rw [if_neg hadmin, if_neg hadmin]

/-- **Whose address an accepted request ends with.**  In every run, a request that is
accepted has the address it should have if and only if, its signer being an admin, the last
check that began before it resumed came with an `impersonate-address` header of the same
effect as its own. -/
theorem identified_iff (t : Run E h g) :
    ∀ i req, g.requests i = some req → req.progress = .returned true →
      (Identified E req ↔ Undisturbed E req (lastImpersonate (beforeResume i h))) := by
  intro i req hreq hacc
  have hk := (invariant_of_run t).known i req hreq
  exact hk.undisturbed_iff hacc

/-! ## Two requests on one guard -/

/-- A token is the address it is valid for. -/
def sampleEnvironment : Environment where
  validate token := .ok ⟨0, 100, token, token, "https://portfolio"⟩
  isLocalhost _ := .ok true
  admins := ["erd1admin"]

/-- The admin's request, without an `impersonate-address` header. -/
def adminHeaders : Headers := ⟨none, some "Bearer erd1admin", none⟩

/-- The request of somebody else, with one. -/
def otherHeaders : Headers := ⟨some "erd1mallory", some "Bearer erd1other", none⟩

/-- The admin's check begins, then the other; then the admin's token turns out valid. -/
def mixedGuard : Guard :=
  ((Guard.new.canActivate 0 (some adminHeaders)).canActivate 1 (some otherHeaders)).validated
    sampleEnvironment 0 (.arrived (some adminHeaders) (.validating "erd1admin")) "erd1admin" none 5

theorem mixedGuard_run : ∃ h, Run sampleEnvironment h mixedGuard := by
  have h₁ : Step sampleEnvironment Guard.new (.canActivate 0 (some adminHeaders))
      (Guard.new.canActivate 0 (some adminHeaders)) := .canActivate rfl
  have h₂ : Step sampleEnvironment _ (.canActivate 1 (some otherHeaders))
      ((Guard.new.canActivate 0 (some adminHeaders)).canActivate 1 (some otherHeaders)) :=
    .canActivate rfl
  have h₃ : Step sampleEnvironment _ (.validated 0 5) mixedGuard :=
    .validated (h := adminHeaders) rfl rfl rfl
  exact ⟨_, ((Trace.nil.snoc h₁).snoc h₂).snoc h₃⟩

/-- The admin's request is accepted as one of the address in the other's header. -/
theorem identity_mixed : ∃ h req, Run sampleEnvironment h mixedGuard ∧
    mixedGuard.requests 0 = some req ∧ req.progress = .returned true ∧
    req.auth.map UserInfo.address = some "erd1mallory" ∧ ¬ Identified sampleEnvironment req := by
  obtain ⟨h, t⟩ := mixedGuard_run
  refine ⟨h, _, t, rfl, rfl, rfl, fun hident => ?_⟩
  have heq := hident adminHeaders _ rfl rfl
  exact absurd heq (by decide)

/-- The admin's request, with one of its own. -/
def impersonatingHeaders : Headers := ⟨some "erd1user", some "Bearer erd1admin", none⟩

/-- The admin's check resumes before the other begins. -/
def orderlyGuard : Guard :=
  ((Guard.new.canActivate 0 (some impersonatingHeaders)).validated sampleEnvironment 0
    (.arrived (some impersonatingHeaders) (.validating "erd1admin")) "erd1admin" none 5).canActivate
      1 (some otherHeaders)

theorem orderlyGuard_run : ∃ h, Run sampleEnvironment h orderlyGuard ∧
    lastImpersonate (beforeResume 0 h) = some "erd1user" := by
  have h₁ : Step sampleEnvironment Guard.new (.canActivate 0 (some impersonatingHeaders))
      (Guard.new.canActivate 0 (some impersonatingHeaders)) := .canActivate rfl
  have h₂ : Step sampleEnvironment _ (.validated 0 5) _ :=
    .validated (g := Guard.new.canActivate 0 (some impersonatingHeaders))
      (h := impersonatingHeaders) rfl rfl rfl
  have h₃ : Step sampleEnvironment _ (.canActivate 1 (some otherHeaders)) orderlyGuard :=
    .canActivate rfl
  exact ⟨_, ((Trace.nil.snoc h₁).snoc h₂).snoc h₃, rfl⟩

/-- The admin's request is accepted as one of the address in its own header. -/
theorem identified_iff_sample : ∃ req, orderlyGuard.requests 0 = some req ∧
    req.auth.map UserInfo.address = some "erd1user" ∧ Identified sampleEnvironment req := by
  obtain ⟨h, t, hlast⟩ := orderlyGuard_run
  refine ⟨_, rfl, rfl, (identified_iff t 0 _ rfl rfl).mpr fun hd info hhd hinfo _ => ?_⟩
  cases hhd
  cases hinfo
  rw [hlast]
  decide

/-! ## A guard of one request -/

theorem beforeResume_of_quiet {i : Nat} (hnone : ∀ e ∈ h, e.label.resumes i = false) :
    beforeResume i h = h := by
  unfold beforeResume
  refine List.takeWhile_eq_self_iff.mpr fun e he => ?_
  rw [hnone e he]
  rfl

/-- Where only the check of `i` begins, the field is what its own header says, now and when
the check resumes. -/
theorem own_header {i : Nat} (t : Run E h g)
    (halone : ∀ e ∈ h, ∀ j headers, e.label = .canActivate j headers → j = i) :
    ∀ req hd, g.requests i = some req → req.headers = some hd →
      lastImpersonate h = hd.impersonateAddress ∧
        lastImpersonate (beforeResume i h) = hd.impersonateAddress := by
  refine t.induct (P := fun e => ∀ j headers, e.label = .canActivate j headers → j = i)
    (I := fun h g => ∀ req hd, g.requests i = some req → req.headers = some hd →
      lastImpersonate h = hd.impersonateAddress ∧
        lastImpersonate (beforeResume i h) = hd.impersonateAddress) ?_ ?_ halone
  · intro req hd hreq
    cases hreq
  · intro h g l g' t ih hP hs
    have hinv := invariant_of_run t
    cases hs with
    | @canActivate j headers hnew =>
        obtain rfl : j = i := hP j headers rfl
        intro req hd hreq hhd
        obtain ⟨_, progress, hrequests, _⟩ := canActivate_spec g j headers
        rw [hrequests, Function.update_self] at hreq
        cases hreq
        cases hhd
        -- the check has not resumed
        have hquiet : (Label.canActivate j (some hd)).resumes j = false := rfl
        rw [beforeResume_of_quiet (quiet_concat (hinv.absent j hnew) hquiet),
          lastImpersonate_concat]
        exact ⟨rfl, rfl⟩
    | @validated j now req' hd' jwt hreq' hhd' hp =>
        intro req hd hreq hhd
        obtain ⟨_, req₁, hrequests, hheaders, _⟩ := validated_spec E g j req' jwt hd'.origin now
        rw [hrequests] at hreq
        rw [lastImpersonate_concat]
        by_cases hij : i = j
        · subst hij
          rw [Function.update_self] at hreq
          cases hreq
          obtain ⟨hfield, _⟩ := ih req' hd hreq' (hheaders.symm.trans hhd)
          have hnone := ((hinv.known i req' hreq').pending jwt hp).1
          have hself : (Label.validated i now).resumes i = true := beq_self_eq_true i
          rw [beforeResume_of_pending hnone hself]
          exact ⟨hfield, hfield⟩
        · rw [Function.update_of_ne hij] at hreq
          obtain ⟨hfield, hbefore⟩ := ih req hd hreq hhd
          refine ⟨hfield, ?_⟩
          by_cases hres : ∃ e ∈ h, e.label.resumes i = true
          · rw [beforeResume_of_resumed _ hres]
            exact hbefore
          · have hnone : ∀ e ∈ h, e.label.resumes i = false := fun e he =>
              Bool.eq_false_iff.mpr fun hr => hres ⟨e, he, hr⟩
            have hquiet : (Label.validated j now).resumes i = false :=
              beq_false_of_ne (Ne.symm hij)
            rw [beforeResume_of_quiet (quiet_concat hnone hquiet), lastImpersonate_concat]
            exact hfield

/-- No token is signed by an admin with the empty address. -/
def Environment.NamesAdmins (E : Environment) : Prop :=
  ∀ jwt info, E.validate jwt = .ok info → info.signerAddress ∈ E.admins → info.signerAddress ≠ ""

/-- **One guard for each request.**  On a guard that checks no other request, an accepted
request has the address it should have, unless its signer is the empty string and an admin. -/
theorem identified_alone {i : Nat} (t : Run E h g)
    (halone : ∀ e ∈ h, ∀ j headers, e.label = .canActivate j headers → j = i)
    (hadmins : E.NamesAdmins) :
    ∀ req, g.requests i = some req → req.progress = .returned true → Identified E req := by
  intro req hreq hacc
  have hk := (invariant_of_run t).known i req hreq
  refine (hk.undisturbed_iff hacc).mpr fun hd info hhd hv hadmin => ?_
  rw [if_neg (hadmins _ info hv hadmin), (own_header t halone req hd hreq hhd).2]

end Auth

end PortfolioPilot
