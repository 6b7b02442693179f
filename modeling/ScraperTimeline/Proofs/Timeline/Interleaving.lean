import ScraperTimeline.Proofs.Timeline.Clients
import ScraperTimeline.Proofs.Timeline.Plan

namespace ScraperTimeline.Sync

open History

variable {ι : Type} {high : Instant} {log : List (Decision ι)}

-- Whether a swap was acknowledged.
def Decision.isChange (d : Decision ι) : Bool :=
  match d.result with
  | .ok outcome => outcome.isChange
  | .error _ => false

-- The versions of a name whose swaps were acknowledged, in the order of the swaps.
def acknowledged (name : String) (log : List (Decision ι)) : List Version :=
  (log.filter fun d => d.isChange && d.version.name = name).map (·.version)

@[simp] theorem acknowledged_nil (name : String) : acknowledged name ([] : List (Decision ι)) = [] := rfl

@[simp] theorem acknowledged_append (name : String) (past more : List (Decision ι)) :
    acknowledged name (past ++ more) = acknowledged name past ++ acknowledged name more := by
  simp [acknowledged]

theorem acknowledged_of_not_isChange {ds : List (Decision ι)} (h : ∀ d ∈ ds, d.isChange = false)
    (name : String) : acknowledged name ds = [] := by
  have hnone : ds.filter (fun d => d.isChange && d.version.name = name) = [] := by
    rw [List.filter_eq_nil_iff]
    intro d hd
    simp [h d hd]
  rw [acknowledged, hnone]
  rfl

theorem acknowledged_of_isChange (i : ι) (new : Version) {outcome : Outcome} (h : outcome.isChange)
    (name : String) :
    acknowledged name [⟨i, new, .ok outcome⟩] = if new.name = name then [new] else [] := by
  by_cases hname : new.name = name
  · simp [acknowledged, Decision.isChange, h, hname]
  · simp [acknowledged, hname]

/-! ### The invariant -/

-- A swap that waits was planned for an open version that came in, possibly one that is closed by now.
structure Pending (high : Instant) (log : List (Decision ι)) (new : Version) (p : Proposal) : Prop where
  planned : plan high new p.seen = .ok (p.outcome, p.writes)
  writes : p.writes ≠ []
  named : ∀ w ∈ p.writes, w.name = new.name
  seen : ∀ o ∈ p.seen, o ∈ acknowledged new.name log

abbrev Client.Ready (high : Instant) (log : List (Decision ι)) (c : Client) : Prop :=
  c.Prepared high (Pending high log)

-- Every history is the chain of what was acknowledged.
structure Sound (high : Instant) (s : Sharing ι MemoryStore) (log : List (Decision ι)) : Prop where
  high_eq : s.store.high = high
  history : ∀ name, s.store.history name = chain high (acknowledged name log)
  succession : ∀ name, Succession high name (acknowledged name log)
  storable : ∀ name, acknowledged name log ≠ [] → Store.isName name
  ready : ∀ i, (s.clients i).Ready high log

theorem Pending.append {new : Version} {p : Proposal} (h : Pending high log new p)
    (more : List (Decision ι)) : Pending high (log ++ more) new p := by
  refine ⟨h.planned, h.writes, h.named, ?_⟩
  intro o ho
  rw [acknowledged_append]
  exact List.mem_append_left _ (h.seen o ho)

-- A swap of what would be planned now is what a whole attempt would do now.
theorem Pending.attempt_eq_commit {new : Version} {p : Proposal} (hp : Pending high log new p)
    {store : MemoryStore} (hseen : store.openOf new.name = p.seen) :
    (attempt high new).run store = (commit new p).run store := by
  apply run_attempt_swap
  rw [run_consult, hseen, hp.planned, Finding.ofPlan_of_ne_nil hp.writes]

namespace Client

variable {c : Client}

theorem Ready.append (h : c.Ready high log) (more : List (Decision ι)) : c.Ready high (log ++ more) := by
  refine ⟨h.high_eq, h.compiled, ?_⟩
  intro p hp
  obtain ⟨new, rest, hbatch, hpending⟩ := h.pending p hp
  exact ⟨new, rest, hbatch, hpending.append more⟩

end Client

namespace Sound

variable {s : Sharing ι MemoryStore}

theorem openOf_eq (hs : Sound high s log) (name : String) :
    s.store.openOf name = (acknowledged name log).getLast? := by
  rw [MemoryStore.openOf, hs.history, hs.high_eq]
  exact open?_chain (hs.succession name)

theorem mem_of_openOf (hs : Sound high s log) {name : String} {o : Version}
    (ho : s.store.openOf name = some o) : o ∈ acknowledged name log := by
  rw [hs.openOf_eq] at ho
  exact List.mem_of_getLast? ho

-- Starts tell the versions apart, so a swap that finds the version it has seen finds it open still.
theorem openOf_eq_of_stillMatches (hs : Sound high s log) {name : String} {seen : Option Version}
    (hseen : ∀ o ∈ seen, o ∈ acknowledged name log)
    (hmatch : Store.stillMatches (s.store.openOf name) seen) : s.store.openOf name = seen := by
  generalize hopen : s.store.openOf name = found at hmatch ⊢
  cases Store.stillMatches_iff.mp hmatch with
  | none => rfl
  | @some current o hsame =>
      simp only [Version.sameVersion, Bool.and_eq_true, decide_eq_true_eq] at hsame
      obtain ⟨⟨⟨-, hstart⟩, -⟩, -⟩ := hsame
      rw [(hs.succession name).eq_of_start_eq (hs.mem_of_openOf hopen) (hseen o rfl) hstart]

end Sound

namespace Sound

variable {s : Sharing ι MemoryStore} {new : Version} {p : Proposal}

theorem planned (hs : Sound high s log) (hnew : new.Compiled high) {outcome : Outcome}
    {writes : List Version}
    (hplan : plan high new (s.store.openOf new.name) = .ok (outcome, writes)) :
    Planned high (acknowledged new.name log) new outcome writes := by
  rw [hs.openOf_eq] at hplan
  exact planned_of_plan (hs.succession new.name) hnew hplan

-- Nothing of a name that cannot be stored is ever there.
theorem openOf_of_not_isName (hs : Sound high s log) {name : String} (hname : Store.isName name = false) :
    acknowledged name log = [] ∧ s.store.openOf name = none := by
  have hnil : acknowledged name log = [] := by
    by_contra hne
    rw [hs.storable name hne] at hname
    cases hname
  rw [hs.openOf_eq, hnil]
  exact ⟨rfl, rfl⟩

end Sound

-- What a call can do: where the client and its decision are after it, and the store.
inductive Called (high : Instant) (log : List (Decision ι)) (store : MemoryStore) (c : Client) :
    Client × Option (Version × Except Fault Outcome) → MemoryStore → Prop
  -- It read, or lost against another client, for the last time perhaps.
  | undecided {next : Client × Option (Version × Except Fault Outcome)} (hready : next.1.Ready high log)
      (hlost : ∀ r ∈ next.2, r.2 = .error (.concurrentModification r.1.name)) :
      Called high log store c next store
  -- It decided against a change.
  | kept {new : Version} {a : Attempt} (hattempt : (attempt high new).run store = (a, store))
      (hkept : a = .settled .unchanged ∨ ∃ e, a = .failed e) :
      Called high log store c (c.conclude new a) store
  -- It put the version in.
  | taken {new : Version} {outcome : Outcome} (hchange : outcome.isChange) (hname : Store.isName new.name)
      (hsuccession : Succession high new.name (acknowledged new.name log ++ [new]))
      (hattempt : (attempt high new).run store = (.settled outcome,
        store.setHistory new.name (chain high (acknowledged new.name log ++ [new])))) :
      Called high log store c (c.conclude new (.settled outcome))
        (store.setHistory new.name (chain high (acknowledged new.name log ++ [new])))

namespace Sound

variable {s : Sharing ι MemoryStore} {i : ι} {new : Version} {rest : List Version}

theorem called_read (hs : Sound high s log) (hbatch : (s.clients i).batch = new :: rest)
    (hnone : (s.clients i).proposal = none) :
    Called high log s.store (s.clients i) ((s.clients i).call.run s.store).1
      ((s.clients i).call.run s.store).2 := by
  have hready := hs.ready i
  obtain rfl : (s.clients i).settings.high = high := hready.high_eq
  have hnew := hready.compiled new (by simp [hbatch])
  have hread := run_consult (s.clients i).settings.high new s.store
  cases hplan : plan (s.clients i).settings.high new (s.store.openOf new.name) with
  | error e =>
      rw [hplan, Finding.ofPlan] at hread
      rw [Client.run_call_ended hbatch hnone hread]
      exact .kept (run_attempt_ended hread) (.inr ⟨e, rfl⟩)
  | ok result =>
      obtain ⟨outcome, writes⟩ := result
      have hplanned := hs.planned hnew hplan
      rw [hplan] at hread
      by_cases hne : writes = []
      · subst hne
        rw [Finding.ofPlan, hplanned.unchanged_of_nil] at hread
        rw [Client.run_call_ended hbatch hnone hread]
        exact .kept (run_attempt_ended hread) (.inl rfl)
      · rw [Finding.ofPlan_of_ne_nil hne] at hread
        rw [Client.run_call_swap hbatch hnone hread]
        have hpending : Pending (s.clients i).settings.high log new
            ⟨s.store.openOf new.name, outcome, writes⟩ :=
          ⟨hplan, hne, (hplanned.changed_of_ne_nil hne).named, fun o ho => hs.mem_of_openOf ho⟩
        refine .undecided ⟨rfl, hready.compiled, ?_⟩ ?_
        · intro p hp
          cases hp
          exact ⟨new, rest, hbatch, hpending⟩
        · intro r hr
          cases hr

theorem called_commit (hs : Sound high s log) (hbatch : (s.clients i).batch = new :: rest)
    {p : Proposal} (hproposal : (s.clients i).proposal = some p) (hp : Pending high log new p) :
    Called high log s.store (s.clients i) ((s.clients i).call.run s.store).1
      ((s.clients i).call.run s.store).2 := by
  have hready := hs.ready i
  have hnew : new.Compiled high := hready.compiled new (by simp [hbatch])
  cases hname : Store.isName new.name with
  | false =>
      -- Nothing of the name is there, so what was seen is still what is there.
      obtain ⟨hnil, hopen⟩ := hs.openOf_of_not_isName hname
      have hseen : s.store.openOf new.name = p.seen := by
        rw [hopen, Eq.comm, Option.eq_none_iff_forall_ne_some]
        intro o ho
        have hm := hp.seen o ho
        rw [hnil] at hm
        cases hm
      have hcommit := run_commit_of_not_isName (p := p) (s := s.store) hname
      have hattempt := hp.attempt_eq_commit hseen
      rw [Client.run_call_commit hbatch hproposal hcommit]
      exact .kept (hattempt.trans hcommit) (.inr ⟨_, rfl⟩)
  | true =>
      cases hmatch : Store.stillMatches (s.store.openOf new.name) p.seen with
      | false =>
          have hcommit := run_commit_of_not_stillMatches hname hp.named hmatch
          rw [Client.run_call_commit hbatch hproposal hcommit]
          refine .undecided (hready.conclude new (.lost (.concurrentModification new.name))) ?_
          intro r hr
          simp only [Client.conclude] at hr
          split at hr
          · cases hr
          · cases hr
            rfl
      | true =>
          have hcommit := run_commit_of_stillMatches hname hp.named hmatch
          have hseen := hs.openOf_eq_of_stillMatches hp.seen hmatch
          have hattempt := hp.attempt_eq_commit hseen
          have hplan := hp.planned
          rw [← hseen] at hplan
          rw [Client.run_call_commit hbatch hproposal hcommit]
          have hchanged := (hs.planned hnew hplan).changed_of_ne_nil hp.writes
          rw [hs.history, hchanged.put] at hcommit ⊢
          exact .taken hchanged.isChange hname
            ((hs.succession new.name).concat rfl hnew hchanged.precedes) (hattempt.trans hcommit)

theorem called (hs : Sound high s log) (i : ι) :
    Called high log s.store (s.clients i) ((s.clients i).call.run s.store).1
      ((s.clients i).call.run s.store).2 := by
  rcases (hs.ready i).call_cases with
    hbatch | ⟨new, rest, hbatch, hnone⟩ | ⟨new, rest, p, hbatch, hproposal, hp⟩
  · rw [Client.run_call_idle hbatch]
    exact .undecided (hs.ready i) (by simp)
  · exact hs.called_read hbatch hnone
  · exact hs.called_commit hbatch hproposal hp

end Sound

section
variable [DecidableEq ι]

-- What a step can do, whichever client makes it: what is decided in it, and the clients and the store after it.
inductive Stepped (high : Instant) (log : List (Decision ι)) (s : Sharing ι MemoryStore) :
    List (Decision ι) → Sharing ι MemoryStore → Prop
  -- Nothing is decided, except that a version is given up perhaps.
  | undecided {i : ι} {c : Client} {ds : List (Decision ι)} (hready : c.Ready high log)
      (hlost : ∀ d ∈ ds, d.result = .error (.concurrentModification d.version.name)) :
      Stepped high log s ds (s.advance i c s.store)
  | kept {i : ι} {c : Client} {new : Version} {a : Attempt} (hready : c.Ready high log)
      (hattempt : (attempt high new).run s.store = (a, s.store))
      (hkept : a = .settled .unchanged ∨ ∃ e, a = .failed e) :
      Stepped high log s [⟨i, new, a.result⟩] (s.advance i c s.store)
  | taken {i : ι} {c : Client} {new : Version} {outcome : Outcome} (hready : c.Ready high log)
      (hchange : outcome.isChange) (hname : Store.isName new.name)
      (hsuccession : Succession high new.name (acknowledged new.name log ++ [new]))
      (hattempt : (attempt high new).run s.store = (.settled outcome,
        s.store.setHistory new.name (chain high (acknowledged new.name log ++ [new])))) :
      Stepped high log s [⟨i, new, .ok outcome⟩]
        (s.advance i c (s.store.setHistory new.name (chain high (acknowledged new.name log ++ [new]))))

namespace Sound

variable {s : Sharing ι MemoryStore} {i : ι} {new : Version}

theorem stepped {t : Sharing ι MemoryStore} {ds : List (Decision ι)} (hs : Sound high s log)
    (hstep : Sharing.Step s ds t) : Stepped high log s ds t := by
  cases hstep with
  | start i batch hidle hbatch =>
      rw [(hs.ready i).high_eq] at hbatch
      exact .undecided (.of_no_proposal (hs.ready i).high_eq hbatch rfl) (by simp)
  | @call i c d store hcall =>
      have hcalled := hs.called i
      rw [hcall] at hcalled
      generalize hnext : (c, d) = next at hcalled
      cases hcalled with
      | undecided hready hlost =>
          cases hnext
          refine .undecided hready fun x hx => ?_
          obtain ⟨r, hr, rfl⟩ := List.mem_map.mp hx
          exact hlost r (Option.mem_toList.mp hr)
      | @kept new a hattempt hkept =>
          have hready := (hs.ready i).conclude new a
          rcases hkept with rfl | ⟨e, rfl⟩
          · cases hnext
            exact .kept hready hattempt (.inl rfl)
          · cases hnext
            exact .kept hready hattempt (.inr ⟨e, rfl⟩)
      | @taken new outcome hchange hname hsuccession hattempt =>
          have hready := (hs.ready i).conclude new (.settled outcome)
          cases hnext
          exact .taken hready hchange hname hsuccession hattempt

theorem ready_advance (hs : Sound high s log) {c : Client} (hc : c.Ready high log) (store : MemoryStore)
    (more : List (Decision ι)) (j : ι) : ((s.advance i c store).clients j).Ready high (log ++ more) := by
  by_cases hij : j = i
  · subst hij
    rw [Sharing.advance_clients_self]
    exact hc.append more
  · rw [Sharing.advance_clients_of_ne _ _ _ _ hij]
    exact (hs.ready j).append more

-- Nothing was acknowledged, and the histories are as they were.
theorem advance_of_not_isChange (hs : Sound high s log) {c : Client} (hc : c.Ready high log)
    {ds : List (Decision ι)} (hds : ∀ d ∈ ds, d.isChange = false) :
    Sound high (s.advance i c s.store) (log ++ ds) := by
  have hnil := acknowledged_of_not_isChange hds
  refine ⟨hs.high_eq, ?_, ?_, ?_, hs.ready_advance hc s.store ds⟩
  · intro name
    rw [acknowledged_append, hnil, List.append_nil]
    exact hs.history name
  · intro name
    rw [acknowledged_append, hnil, List.append_nil]
    exact hs.succession name
  · intro name hne
    rw [acknowledged_append, hnil, List.append_nil] at hne
    exact hs.storable name hne

theorem advance_of_isChange (hs : Sound high s log) {c : Client} (hc : c.Ready high log)
    {outcome : Outcome} (hchange : outcome.isChange) (hname : Store.isName new.name)
    (hsuccession : Succession high new.name (acknowledged new.name log ++ [new])) :
    Sound high
      (s.advance i c (s.store.setHistory new.name (chain high (acknowledged new.name log ++ [new]))))
      (log ++ [⟨i, new, .ok outcome⟩]) := by
  have hself : acknowledged new.name (log ++ [⟨i, new, .ok outcome⟩]) =
      acknowledged new.name log ++ [new] := by
    rw [acknowledged_append, acknowledged_of_isChange i new hchange, if_pos rfl]
  have hother : ∀ name, name ≠ new.name →
      acknowledged name (log ++ [⟨i, new, .ok outcome⟩]) = acknowledged name log := by
    intro name hne
    rw [acknowledged_append, acknowledged_of_isChange i new hchange, if_neg (Ne.symm hne), List.append_nil]
  refine ⟨hs.high_eq, ?_, ?_, ?_, hs.ready_advance hc _ _⟩
  · intro name
    rw [Sharing.advance_store]
    by_cases hne : name = new.name
    · rw [hne, hself, MemoryStore.history_setHistory_self]
    · rw [hother name hne, MemoryStore.history_setHistory_of_ne hne]
      exact hs.history name
  · intro name
    by_cases hne : name = new.name
    · rw [hne, hself]
      exact hsuccession
    · rw [hother name hne]
      exact hs.succession name
  · intro name hsome
    by_cases hne : name = new.name
    · rw [hne]
      exact hname
    · rw [hother name hne] at hsome
      exact hs.storable name hsome

theorem step {t : Sharing ι MemoryStore} {ds : List (Decision ι)} (hs : Sound high s log)
    (hstep : Sharing.Step s ds t) : Sound high t (log ++ ds) := by
  cases hs.stepped hstep with
  | undecided hready hlost =>
      refine hs.advance_of_not_isChange hready fun d hd => ?_
      rw [Decision.isChange, hlost d hd]
  | kept hready _ hkept =>
      refine hs.advance_of_not_isChange hready (List.forall_mem_singleton.mpr ?_)
      rcases hkept with rfl | ⟨e, rfl⟩ <;> rfl
  | taken hready hchange hname hsuccession =>
      exact hs.advance_of_isChange hready hchange hname hsuccession

end Sound

end

-- All clients are at rest, and nothing is stored.
def Sharing.fresh (high : Instant) (retries backoff : ι → Nat) : Sharing ι MemoryStore :=
  ⟨.empty high, fun i => .idle ⟨high, retries i, backoff i⟩⟩

theorem sound_fresh (high : Instant) (retries backoff : ι → Nat) :
    Sound high (Sharing.fresh high retries backoff) [] := by
  refine ⟨rfl, fun _ => rfl, fun _ => .nil, by simp, fun i => ?_⟩
  exact Client.Prepared.of_no_proposal rfl (by simp [Sharing.fresh, Client.idle]) rfl

theorem Sound.run [DecidableEq ι] {s t : Sharing ι MemoryStore} {more : List (Decision ι)}
    (hs : Sound high s log) (hrun : Sharing.Run s more t) : Sound high t (log ++ more) := by
  induction hrun with
  | refl => simpa using hs
  | step _ hstep ih =>
      rw [← List.append_assoc]
      exact ih.step hstep

-- Two clients read before either of them swaps. The second one loses, reads again and closes what the
-- first one put in.
theorem exists_race :
    let version (second : Int) (body : Tree) : Version := .ofBody "axis" ⟨second, 0⟩ ⟨9, 0⟩ body
    ∃ s t : Sharing Bool MemoryStore,
      Sharing.Run (.fresh ⟨9, 0⟩ (fun _ => 1) (fun _ => 0)) [⟨false, version 1 .null, .ok .inserted⟩] s ∧
      Sharing.Run s [⟨true, version 2 (.bool true), .ok (.superseded ⟨1, 0⟩)⟩] t ∧
      s.store.history "axis" = [version 1 .null] ∧
      t.store.history "axis" = [(version 1 .null).closedAt ⟨1, 0⟩, version 2 (.bool true)] := by
  intro version
  have hfirst : (version 1 .null).Compiled ⟨9, 0⟩ := ⟨rfl, rfl, .inl (by decide)⟩
  have hsecond : (version 2 (.bool true)).Compiled ⟨9, 0⟩ := ⟨rfl, rfl, .inl (by decide)⟩
  have hname : Store.isName "axis" := by decide
  let settings : Settings := ⟨⟨9, 0⟩, 1, 0⟩
  let proposal : Proposal := ⟨none, .inserted, [version 2 (.bool true)]⟩
  have hread : (consult ⟨9, 0⟩ (version 2 (.bool true))).run (.empty ⟨9, 0⟩) =
      (.swap proposal, MemoryStore.empty ⟨9, 0⟩) := by
    rw [run_consult, show MemoryStore.openOf _ (.empty ⟨9, 0⟩) = none from rfl, plan_none hsecond]
    rfl
  obtain ⟨waiting, hwaiting, hidle, hpending, hempty⟩ := Sharing.exists_run_read
    (s := .fresh ⟨9, 0⟩ (fun _ => 1) (fun _ => 0)) (i := false) (j := true) (by decide) settings
    rfl rfl hfirst hsecond hread
  have hnothing : waiting.store.history "axis" = chain ⟨9, 0⟩ [] := by rw [hempty]; rfl
  have hinsert := run_attempt_of_plan (by rw [hempty]; rfl) hnothing .nil hfirst hname (by simp)
    (plan_none hfirst)
  rw [if_neg (by simp), List.nil_append] at hinsert
  have hwon := Sharing.run_of_settle 1 hidle rfl (run_settle hinsert (by simp))
  let stored := (MemoryStore.empty ⟨9, 0⟩).setHistory "axis" [version 1 .null]
  obtain ⟨s, hpast, hpending, hstored⟩ : ∃ s : Sharing Bool MemoryStore,
      Sharing.Run (.fresh ⟨9, 0⟩ (fun _ => 1) (fun _ => 0)) [⟨false, version 1 .null, .ok .inserted⟩] s ∧
      s.clients true = ⟨settings, [version 2 (.bool true)], 0, some proposal⟩ ∧ s.store = stored := by
    refine ⟨_, hwaiting.trans hwon, ?_, ?_⟩
    · rw [Sharing.advance_clients_of_ne _ _ _ _ (by decide)]
      exact hpending
    · rw [Sharing.advance_store, hempty]
      rfl
  have hcommit : (commit (version 2 (.bool true)) proposal).run s.store =
      (.lost (.concurrentModification "axis"), s.store) := by
    rw [hstored]
    exact run_commit_of_not_stillMatches hname (by simp [proposal, version, Version.ofBody]) (by decide)
  let retrying : Client := ⟨settings, [version 2 (.bool true)], 1, none⟩
  have hlost : (s.clients true).call.run s.store =
      ((retrying, none), s.store) := by
    rw [hpending]
    exact Client.run_call_commit rfl rfl hcommit
  have hagain := Sharing.Run.single (.call true hlost)
  have hsuccession : Succession ⟨9, 0⟩ "axis" [version 1 .null] :=
    ⟨by simp [version, Version.ofBody], by simpa using hfirst, List.pairwise_singleton _ _⟩
  have hhistory : s.store.history "axis" = chain ⟨9, 0⟩ [version 1 .null] := by rw [hstored]; rfl
  have hplan : plan ⟨9, 0⟩ _ [version 1 .null].getLast? = _ := plan_some hsecond hfirst.isOpen rfl
  rw [if_neg (by decide), if_neg (by decide)] at hplan
  have hsupersede := run_attempt_of_plan (by rw [hstored]; rfl) hhistory hsuccession hsecond hname
    (by decide) hplan
  rw [if_neg (by simp)] at hsupersede
  have hclosed := Sharing.run_of_settle 0 (s.advance_clients_self true retrying s.store) rfl
    (run_settle hsupersede (by simp))
  rw [Sharing.advance_advance] at hclosed
  refine ⟨s, _, hpast, hagain.trans hclosed, hhistory, ?_⟩
  rw [Sharing.advance_store]
  exact MemoryStore.history_setHistory_self ..

end ScraperTimeline.Sync
