import ScraperTimeline.Proofs.Timeline.History
import ScraperTimeline.Proofs.Timeline.Memory
import Mathlib.Logic.Function.Basic

namespace ScraperTimeline.Sync

-- A sync between two of its calls of the store.
structure Client where
  settings : Settings
  -- The version that is being brought in, and those after it.
  batch : List Version
  -- The retries that have been made for it.
  made : Nat
  -- What has been read and planned for it, and is to be swapped.
  proposal : Option Proposal

-- What became of a version, and whose it was.
structure Decision (ι : Type) where
  client : ι
  version : Version
  result : Except Fault Outcome

-- Clients that share a store.
structure Sharing (ι σ : Type) where
  store : σ
  clients : ι → Client

namespace Client

def idle (settings : Settings) : Client := ⟨settings, [], 0, none⟩

-- Where a client goes on after an attempt, and what it tells of the version.
def conclude (c : Client) (new : Version) : Attempt → Client × Option (Version × Except Fault Outcome)
  | .settled outcome => (⟨c.settings, c.batch.tail, 0, none⟩, some (new, .ok outcome))
  | .failed e => (idle c.settings, some (new, .error e))
  | .lost e =>
    if c.made < c.settings.retries then ({ c with made := c.made + 1, proposal := none }, none)
    else (idle c.settings, some (new, .error e))

-- The next call of the store: a read, or the swap that has been planned.
def call {σ : Type} [Store σ] (c : Client) : StateM σ (Client × Option (Version × Except Fault Outcome)) :=
  match c.batch, c.proposal with
  | [], _ => return (c, none)
  | new :: _, none => do
    match ← consult c.settings.high new with
    | .ended a => return c.conclude new a
    | .swap p => return ({ c with proposal := some p }, none)
  | new :: _, some p => return c.conclude new (← commit new p)

-- Versions that can come in, and a swap of the first of them that is held back.
structure Prepared (high : Instant) (Pending : Version → Proposal → Prop) (c : Client) : Prop where
  high_eq : c.settings.high = high
  compiled : ∀ v ∈ c.batch, v.Compiled high
  pending : ∀ p ∈ c.proposal, ∃ new rest, c.batch = new :: rest ∧ Pending new p

namespace Prepared

variable {high : Instant} {Pending : Version → Proposal → Prop} {c : Client}

theorem of_no_proposal (hhigh : c.settings.high = high) (hbatch : ∀ v ∈ c.batch, v.Compiled high)
    (hnone : c.proposal = none) : c.Prepared high Pending := by
  refine ⟨hhigh, hbatch, ?_⟩
  intro p hp
  rw [hnone] at hp
  cases hp

theorem conclude (h : c.Prepared high Pending) (new : Version) (a : Attempt) :
    (c.conclude new a).1.Prepared high Pending := by
  cases a with
  | settled outcome =>
      have hrest : ∀ v ∈ c.batch.tail, v.Compiled high := fun v hv =>
        h.compiled v (List.mem_of_mem_tail hv)
      exact of_no_proposal (c := ⟨c.settings, c.batch.tail, 0, none⟩) h.high_eq hrest rfl
  | failed e => exact of_no_proposal h.high_eq (by simp [Client.conclude, idle]) rfl
  | lost e =>
      simp only [Client.conclude]
      split
      · exact of_no_proposal h.high_eq h.compiled rfl
      · exact of_no_proposal h.high_eq (by simp [idle]) rfl

-- A client is done, or it reads next, or it makes the swap that is held back.
theorem call_cases (h : c.Prepared high Pending) :
    c.batch = [] ∨ (∃ new rest, c.batch = new :: rest ∧ c.proposal = none) ∨
      ∃ new rest p, c.batch = new :: rest ∧ c.proposal = some p ∧ Pending new p := by
  cases hbatch : c.batch with
  | nil => exact .inl rfl
  | cons new rest =>
      cases hproposal : c.proposal with
      | none => exact .inr (.inl ⟨new, rest, rfl, rfl⟩)
      | some p =>
          obtain ⟨new', rest', hbatch', hp⟩ := h.pending p hproposal
          cases hbatch.symm.trans hbatch'
          exact .inr (.inr ⟨new, rest, p, rfl, rfl, hp⟩)

end Prepared

theorem conclude_proposal (c : Client) (p : Option Proposal) (new : Version) (a : Attempt) :
    { c with proposal := p }.conclude new a = c.conclude new a := by
  cases a <;> rfl

section
variable {σ : Type} [Store σ] {c : Client} {new : Version} {rest : List Version} {store after : σ}

theorem run_call_idle (hbatch : c.batch = []) : c.call.run store = ((c, none), store) := by
  rw [call, hbatch]
  rfl

theorem run_call_ended (hbatch : c.batch = new :: rest) (hnone : c.proposal = none) {a : Attempt}
    (hread : (consult c.settings.high new).run store = (.ended a, after)) :
    c.call.run store = (c.conclude new a, after) := by
  obtain ⟨settings, batch, made, proposal⟩ := c
  subst hbatch hnone
  simp only [call, StateT.run_bind, hread]
  rfl

theorem run_call_swap (hbatch : c.batch = new :: rest) (hnone : c.proposal = none) {p : Proposal}
    (hread : (consult c.settings.high new).run store = (.swap p, after)) :
    c.call.run store = (({ c with proposal := some p }, none), after) := by
  obtain ⟨settings, batch, made, proposal⟩ := c
  subst hbatch hnone
  simp only [call, StateT.run_bind, hread]
  rfl

theorem run_call_commit (hbatch : c.batch = new :: rest) {p : Proposal} (hp : c.proposal = some p)
    {a : Attempt} (hcommit : (commit new p).run store = (a, after)) :
    c.call.run store = (c.conclude new a, after) := by
  obtain ⟨settings, batch, made, proposal⟩ := c
  subst hbatch hp
  simp only [call, StateT.run_bind, hcommit]
  rfl

end

end Client

namespace Sharing

section
variable {ι σ : Type} [DecidableEq ι]

-- The clients and the store after a client has gone on and left the store in this state.
def advance (s : Sharing ι σ) (i : ι) (c : Client) (store : σ) : Sharing ι σ :=
  ⟨store, Function.update s.clients i c⟩

def told (i : ι) (d : Option (Version × Except Fault Outcome)) : List (Decision ι) :=
  d.toList.map fun (version, result) => ⟨i, version, result⟩

variable (s : Sharing ι σ) (i : ι) (c : Client) (store : σ)

@[simp] theorem advance_store : (s.advance i c store).store = store := rfl

@[simp] theorem advance_clients_self : (s.advance i c store).clients i = c :=
  Function.update_self ..

theorem advance_clients_of_ne {j : ι} (h : j ≠ i) : (s.advance i c store).clients j = s.clients j :=
  Function.update_of_ne h ..

@[simp] theorem advance_advance (d : Client) (after : σ) :
    (s.advance i c store).advance i d after = s.advance i d after := by
  simp only [advance, Function.update_idem]

end

variable {ι σ : Type} [DecidableEq ι] [Store σ]

-- A client that is done takes up a list of compiled versions, or some client makes its next call.
inductive Step : Sharing ι σ → List (Decision ι) → Sharing ι σ → Prop
  | start {s : Sharing ι σ} (i : ι) (batch : List Version) (hidle : (s.clients i).batch = [])
      (hbatch : ∀ v ∈ batch, v.Compiled (s.clients i).settings.high) :
      Step s [] (s.advance i ⟨(s.clients i).settings, batch, 0, none⟩ s.store)
  | call {s : Sharing ι σ} (i : ι) {c : Client} {d : Option (Version × Except Fault Outcome)} {store : σ}
      (hcall : (s.clients i).call.run s.store = ((c, d), store)) :
      Step s (told i d) (s.advance i c store)

-- Any number of steps, and what was decided in them, in its order.
inductive Run : Sharing ι σ → List (Decision ι) → Sharing ι σ → Prop
  | refl (s : Sharing ι σ) : Run s [] s
  | step {s t u : Sharing ι σ} {log ds : List (Decision ι)} (hrun : Run s log t) (hstep : Step t ds u) :
      Run s (log ++ ds) u

theorem Run.trans {s t u : Sharing ι σ} {past more : List (Decision ι)} (hst : Run s past t)
    (htu : Run t more u) : Run s (past ++ more) u := by
  induction htu with
  | refl => simpa using hst
  | step _ hstep ih =>
      rw [← List.append_assoc]
      exact ih.step hstep

theorem Run.single {s t : Sharing ι σ} {ds : List (Decision ι)} (h : Step s ds t) : Run s ds t := by
  simpa using (Run.refl s).step h

-- Of two clients at rest, the second one has read when both have taken up a version, and the first one has not.
theorem exists_run_read {s : Sharing ι σ} {i j : ι} (hij : i ≠ j) (settings : Settings) {first second : Version}
    {p : Proposal} (hi : s.clients i = .idle settings) (hj : s.clients j = .idle settings)
    (hfirst : first.Compiled settings.high) (hsecond : second.Compiled settings.high)
    (hread : (consult settings.high second).run s.store = (.swap p, s.store)) :
    ∃ t : Sharing ι σ, Run s [] t ∧ t.clients i = ⟨settings, [first], 0, none⟩ ∧
      t.clients j = ⟨settings, [second], 0, some p⟩ ∧ t.store = s.store := by
  let begun := s.advance i ⟨settings, [first], 0, none⟩ s.store
  have hbegun : Step s [] begun := by
    have hstart := Step.start (s := s) i [first] (by rw [hi]; rfl) (by simpa [hi, Client.idle] using hfirst)
    rwa [hi] at hstart
  have hrest : begun.clients j = .idle settings := (advance_clients_of_ne _ _ _ _ hij.symm).trans hj
  let ready := begun.advance j ⟨settings, [second], 0, none⟩ s.store
  have hready : Step begun [] ready := by
    have hstart := Step.start (s := begun) j [second] (by rw [hrest]; rfl)
      (by simpa [hrest, Client.idle] using hsecond)
    rwa [hrest] at hstart
  have hcall : (ready.clients j).call.run ready.store =
      ((⟨settings, [second], 0, some p⟩, none), s.store) := by
    rw [advance_clients_self]
    exact Client.run_call_swap rfl rfl hread
  refine ⟨_, ((Run.single hbegun).step hready).step (.call j hcall), ?_, advance_clients_self .., rfl⟩
  rw [advance_clients_of_ne _ _ _ _ hij, advance_clients_of_ne _ _ _ _ hij, advance_clients_self]

/-! ### A client alone -/

variable {i : ι} {c : Client} {settings : Settings} {new : Version} {rest : List Version}
  {store after : σ}

-- An attempt is one call, or two.
theorem run_of_attempt {s : Sharing ι σ} (hc : s.clients i = c) (hbatch : c.batch = new :: rest)
    (hnone : c.proposal = none) {a : Attempt}
    (ha : (attempt c.settings.high new).run s.store = (a, after)) :
    Run s (told i (c.conclude new a).2) (s.advance i (c.conclude new a).1 after) := by
  subst hc
  cases hread : (consult (s.clients i).settings.high new).run s.store with
  | mk found store =>
      cases found with
      | ended b =>
          rw [run_attempt_ended hread] at ha
          cases ha
          exact .single (.call i (Client.run_call_ended hbatch hnone hread))
      | swap p =>
          rw [run_attempt_swap hread] at ha
          have hfirst := Step.call i (Client.run_call_swap hbatch hnone hread)
          let waiting : Client := { s.clients i with proposal := some p }
          have hswap : waiting.call.run store = (waiting.conclude new a, after) :=
            Client.run_call_commit (show waiting.batch = new :: rest from hbatch) rfl ha
          rw [Client.conclude_proposal] at hswap
          have hsecond : Step (s.advance i waiting store) (told i ((s.clients i).conclude new a).2)
              ((s.advance i waiting store).advance i ((s.clients i).conclude new a).1 after) := by
            apply Step.call i
            simpa using hswap
          rw [advance_advance] at hsecond
          exact (Run.single hfirst).step hsecond

-- The client after a version is settled.
def settledClient (settings : Settings) (rest : List Version) : Except Fault Outcome → Client
  | .ok _ => ⟨settings, rest, 0, none⟩
  | .error _ => .idle settings

-- A client settles a version as `settle` does when no other one comes between its calls.
theorem run_of_settle (left : Nat) {made : Nat} {s : Sharing ι σ} {waits : List Wait} {result : Except Fault Outcome}
    (hc : s.clients i = ⟨settings, new :: rest, made, none⟩) (hmade : made + left = settings.retries)
    (hs : (settle settings new made left).run s.store = ((waits, result), after)) :
    Run s [⟨i, new, result⟩] (s.advance i (settledClient settings rest result) after) := by
  replace hs := settles_iff.mpr hs
  generalize hstore : s.store = store at hs
  induction hs generalizing s with
  | @last _ _ made _ a ha hlast =>
      rw [← hstore] at ha
      have hrun := run_of_attempt hc rfl rfl ha
      cases a with
      | settled outcome => exact hrun
      | failed e => exact hrun
      | lost e =>
          obtain rfl := hlast e rfl
          have hnomore : ¬made < settings.retries := by omega
          simp only [Client.conclude, hnomore, if_false] at hrun
          exact hrun
  | @lost _ next _ made _ _ _ _ ha _ ih =>
      rw [← hstore] at ha
      have hrun := run_of_attempt hc rfl rfl ha
      have hmore : made < settings.retries := by omega
      simp only [Client.conclude, hmore, if_true] at hrun
      have hnext := ih (advance_clients_self s i _ next) (by omega) rfl
      rw [advance_advance] at hnext
      exact hrun.trans hnext

-- What the decisions of a client say of its list as a whole.
def reportOf (ds : List (Decision ι)) : Except Fault Report :=
  ds.mapM fun d => d.result.map (d.version.name, ·)

-- Without other clients in between, taking up a list and making calls until it is done is `apply`.
theorem run_of_apply (vs : List Version) {s : Sharing ι σ} {waits : List Wait} {report : Except Fault Report}
    (hc : s.clients i = ⟨settings, vs, 0, none⟩)
    (hs : (apply settings vs).run s.store = ((waits, report), after)) :
    ∃ ds, Run s ds (s.advance i (.idle settings) after) ∧ reportOf ds = report := by
  replace hs := applies_iff.mpr hs
  generalize hstore : s.store = store at hs
  induction hs generalizing s with
  | nil =>
      have hself : s.advance i (.idle settings) s.store = s := by
        rw [Client.idle, ← hc]
        simp [advance]
      refine ⟨[], ?_, rfl⟩
      rw [← hstore, hself]
      exact .refl s
  | failed hsettle =>
      rw [← hstore] at hsettle
      exact ⟨_, run_of_settle settings.retries hc (by omega) hsettle, rfl⟩
  | @settled _ next _ _ _ _ _ _ _ hsettle _ ih =>
      rw [← hstore] at hsettle
      have hrun := run_of_settle settings.retries hc (by omega) hsettle
      obtain ⟨ds, hmore, hreport⟩ := ih (advance_clients_self s i _ next) rfl
      rw [advance_advance] at hmore
      refine ⟨_, hrun.trans hmore, ?_⟩
      simp only [reportOf, List.singleton_append, List.mapM_cons] at hreport ⊢
      rw [hreport]
      rfl

end Sharing

end ScraperTimeline.Sync
