import ScraperTimeline.Proofs.Timeline.Chained
import ScraperTimeline.Proofs.Timeline.FileStore
import ScraperTimeline.Proofs.Timeline.Interleaving

/-!
Clients that share a store of files. As long as what they put in can be read back, each history is one that
compiled versions make, whatever the clients do in between.
-/
namespace ScraperTimeline

-- The file of a name holds this history, which was written for compiled versions.
structure FileStore.Records (high : Instant) (s : FileStore) (name : String) (h : History) : Prop where
  file : s.files.at? (historyFile name :: s.dir) = if h.isEmpty then none else some (.file (some h.toJson))
  chained : h.Chained high name
  legible : ∀ v ∈ h, v.Legible

namespace FileStore

variable {high : Instant} {s s' : FileStore} {name other : String} {h h' : History}

theorem Records.readHistory (hr : s.Records high name h) (hne : h ≠ []) :
    ∃ h', s.readHistory name = .ok h' ∧ h'.Chained high name ∧ (∀ v ∈ h', v.Legible) ∧ h' ≠ [] := by
  obtain ⟨h', hread, hlegible, hnil⟩ := History.exists_reread hr.legible
  have hfile := hr.file
  rw [if_neg (by simpa using hne)] at hfile
  refine ⟨h', ?_, hr.chained.reread hread, hlegible, fun heq => hne (hnil.mp heq)⟩
  rw [readHistory_of_file hfile, History.ofJson?_toJson fun v hv => (hr.legible v hv).dated, hread]
  rfl

theorem Records.of_readHistory (hr : s.Records high name h) (hread : s.readHistory name = .ok h') :
    h'.Chained high name ∧ ∀ v ∈ h', v.Legible := by
  by_cases hne : h = []
  · have hfile := hr.file
    subst hne
    rw [FileStore.readHistory, Files.read, hfile, List.isEmpty_nil, if_pos rfl] at hread
    dsimp only at hread
    split at hread
    · rename_i heq
      cases heq
    · cases hread
      exact ⟨History.chained_nil, by simp⟩
    · cases hread
    · cases hread
  · obtain ⟨h'', hread', hchained, hlegible, -⟩ := hr.readHistory hne
    rw [hread] at hread'
    cases hread'
    exact ⟨hchained, hlegible⟩

theorem Wrote.records (hw : Wrote s name h s') (hchained : h.Chained high name)
    (hlegible : ∀ v ∈ h, v.Legible) (hne : h ≠ []) : s'.Records high name h := by
  refine ⟨?_, hchained, hlegible⟩
  rw [hw.dir, hw.history, if_neg (by simpa using hne)]

theorem Wrote.records_of_ne (hw : Wrote s name h s') (hne : other ≠ name) (hr : s.Records high other h') :
    s'.Records high other h' := by
  refine ⟨?_, hr.chained, hr.legible⟩
  rw [hw.dir, hw.at?_historyFile_of_ne hne, hr.file]

end FileStore

namespace Sync

variable {ι : Type} {high : Instant} {log : List (Decision ι)} {s : Sharing ι FileStore} {i : ι} {c : Client}
  {new : Version} {rest : List Version}

-- The histories are chains, and there is one of each name of which something was acknowledged.
structure Filed (high : Instant) (s : Sharing ι FileStore) (log : List (Decision ι)) : Prop where
  high_eq : s.store.high = high
  free : ∀ name, s.store.Free name
  history : ∀ name, ∃ h, s.store.Records high name h ∧ (h = [] ↔ acknowledged name log = [])
  storable : ∀ name, acknowledged name log ≠ [] → Store.isName name
  prepared : ∀ i, (s.clients i).Prepared high (Drafted high)

-- Nothing that was put in.
def Unacknowledged (d : Option (Version × Except Fault Outcome)) : Prop :=
  ∀ r ∈ d, ∀ outcome, r.2 = .ok outcome → outcome.isChange = false

theorem unacknowledged_conclude_error (c : Client) (new : Version) (outcome : Outcome) (e : Fault) :
    Unacknowledged (c.conclude new (.ofSwap outcome (.error e))).2 := by
  intro r hr kept hok
  rw [Attempt.ofSwap] at hr
  split at hr
  · simp only [Client.conclude] at hr
    split at hr
    · cases hr
    · cases hr
      cases hok
  · cases hr
    cases hok

theorem acknowledged_told {d : Option (Version × Except Fault Outcome)} (hd : Unacknowledged d) (i : ι)
    (name : String) : acknowledged name (Sharing.told i d) = [] := by
  apply acknowledged_of_not_isChange
  intro x hx
  obtain ⟨r, hr, rfl⟩ := List.mem_map.mp hx
  rw [Option.mem_toList] at hr
  rw [Decision.isChange]
  split
  next outcome hok => exact hd r hr outcome hok
  next => rfl

-- What a call can do: where the client and its decision are after it, and the store.
inductive CalledFiles (high : Instant) (store : FileStore) :
    Client × Option (Version × Except Fault Outcome) → FileStore → Prop
  | kept {next : Client × Option (Version × Except Fault Outcome)}
      (hprepared : next.1.Prepared high (Drafted high)) (hnone : Unacknowledged next.2) :
      CalledFiles high store next store
  | wrote {c : Client} {new : Version} {outcome : Outcome} {h : History} {after : FileStore}
      (hprepared : c.Prepared high (Drafted high)) (hchange : outcome.isChange)
      (hname : Store.isName new.name) (hw : FileStore.Wrote store new.name h after)
    (hchained : h.Chained high new.name) (hne : h ≠ [])
      (hlegible : new.Legible → ∀ v ∈ h, v.Legible) :
      CalledFiles high store (c, some (new, .ok outcome)) after

namespace Filed

-- What is read as open is an open version of the name.
theorem findOpen (hs : Filed high s log) {name : String} {answer : Except Fault (Option Version)}
    {store : FileStore}
    (hfound : (Store.findOpen name : Storing FileStore (Option Version)).run.run s.store = (answer, store)) :
    store = s.store ∧ ∀ seen, answer = .ok seen →
      ∀ o ∈ seen, o.isOpen high ∧ o.name = name ∧ o.Legible := by
  cases hname : Store.isName name with
  | false =>
      rw [FileStore.run_findOpen_of_not_isName hname] at hfound
      cases hfound
      exact ⟨rfl, by simp⟩
  | true =>
      cases hread : s.store.readHistory name with
      | error e =>
          rw [FileStore.run_findOpen_of_error hname hread] at hfound
          cases hfound
          exact ⟨rfl, by simp⟩
      | ok h =>
          rw [FileStore.run_findOpen hname hread, hs.high_eq] at hfound
          cases hfound
          refine ⟨rfl, fun seen hok o ho => ?_⟩
          cases hok
          obtain ⟨_, hrecords, -⟩ := hs.history name
          obtain ⟨hchained, hlegible⟩ := hrecords.of_readHistory hread
          obtain ⟨hmem, hopen, hnamed⟩ := hchained.of_open? ho
          exact ⟨hopen, hnamed, hlegible o hmem⟩

theorem called_read (hs : Filed high s log) (hbatch : (s.clients i).batch = new :: rest)
    (hnone : (s.clients i).proposal = none) :
    CalledFiles high s.store ((s.clients i).call.run s.store).1 ((s.clients i).call.run s.store).2 := by
  have hprepared := hs.prepared i
  obtain rfl : (s.clients i).settings.high = high := hprepared.high_eq
  have hnew := hprepared.compiled new (by simp [hbatch])
  have hended {a : Attempt} (hread : (consult (s.clients i).settings.high new).run s.store =
      (.ended a, s.store)) (ha : a = .settled .unchanged ∨ ∃ e, a = .failed e) :
      CalledFiles (s.clients i).settings.high s.store ((s.clients i).call.run s.store).1
        ((s.clients i).call.run s.store).2 := by
    rw [Client.run_call_ended hbatch hnone hread]
    refine .kept (hprepared.conclude new a) fun r hr outcome hok => ?_
    rcases ha with rfl | ⟨e, rfl⟩ <;> cases hr <;> cases hok
    rfl
  cases hfound : (Store.findOpen new.name : Storing FileStore (Option Version)).run.run s.store with
  | mk answer store =>
      obtain ⟨rfl, hseen⟩ := hs.findOpen hfound
      cases answer with
      | error e => exact hended (run_consult_of_error hfound) (.inr ⟨e, rfl⟩)
      | ok seen =>
          have hread : (consult (s.clients i).settings.high new).run _ = _ := run_consult_of_read hfound
          cases hplan : plan (s.clients i).settings.high new seen with
          | error e =>
              rw [hplan] at hread
              exact hended hread (.inr ⟨e, rfl⟩)
          | ok planned =>
              obtain ⟨outcome, writes⟩ := planned
              rw [hplan] at hread
              rcases drafted_of_plan hnew (hseen seen rfl) hplan with ⟨rfl, rfl⟩ | hdrafted
              · exact hended hread (.inl rfl)
              · rw [Finding.ofPlan_of_ne_nil hdrafted.writes] at hread
                rw [Client.run_call_swap hbatch hnone hread]
                refine .kept ⟨rfl, hprepared.compiled, fun p hp => ?_⟩ fun r hr => by cases hr
                cases hp
                exact ⟨new, rest, hbatch, hdrafted⟩

theorem called_commit (hs : Filed high s log) (hbatch : (s.clients i).batch = new :: rest) {p : Proposal}
    (hproposal : (s.clients i).proposal = some p) (hp : Drafted high new p) :
    CalledFiles high s.store ((s.clients i).call.run s.store).1 ((s.clients i).call.run s.store).2 := by
  have hprepared := hs.prepared i
  have hnew := hprepared.compiled new (by simp [hbatch])
  -- A swap that fails is told as an error, or not yet.
  have hrefused {e : Fault} (hswap : (Store.swap new.name p.seen p.writes : Storing FileStore Unit).run.run
      s.store = (.error e, s.store)) :
      CalledFiles high s.store ((s.clients i).call.run s.store).1 ((s.clients i).call.run s.store).2 := by
    rw [Client.run_call_commit hbatch hproposal (run_commit_of_swap hswap)]
    exact .kept (hprepared.conclude new _) (unacknowledged_conclude_error (s.clients i) new p.outcome e)
  cases hname : Store.isName new.name with
  | false => exact hrefused (FileStore.run_swap_of_not_isName hname p.seen p.writes)
  | true =>
      obtain ⟨result, store, hswap, hchanged⟩ :=
        FileStore.run_swap (hs.free new.name) hname hp.named p.seen
      cases hchanged with
      | refused => exact hrefused hswap
      | unreadable => exact hrefused hswap
      | long => exact hrefused hswap
      | @wrote before h _ hread hf hw =>
          obtain ⟨_, hrecords, -⟩ := hs.history new.name
          obtain ⟨hchained, hlegible⟩ := hrecords.of_readHistory hread
          rw [hs.high_eq] at hf
          have hafter := hchained.swapped hnew hp.planned hf
          rw [Client.run_call_commit hbatch hproposal (run_commit_of_swap hswap)]
          rw [Store.swapped] at hf
          split at hf
          · cases hf
            refine .wrote (hprepared.conclude new (.settled p.outcome)) hp.isChange hname hw hafter
              (History.foldl_put_ne_nil hp.writes _) fun hread v hv => ?_
            exact (History.mem_of_mem_foldl_put hv).elim (hp.legible hread v) (hlegible v)
          · cases hf

theorem called (hs : Filed high s log) (i : ι) :
    CalledFiles high s.store ((s.clients i).call.run s.store).1 ((s.clients i).call.run s.store).2 := by
  rcases (hs.prepared i).call_cases with
    hbatch | ⟨new, rest, hbatch, hnone⟩ | ⟨new, rest, p, hbatch, hproposal, hp⟩
  · rw [Client.run_call_idle hbatch]
    exact .kept (hs.prepared i) fun r hr => by cases hr
  · exact hs.called_read hbatch hnone
  · exact hs.called_commit hbatch hproposal hp

variable [DecidableEq ι]

theorem prepared_advance (hs : Filed high s log) {c : Client} (hc : c.Prepared high (Drafted high))
    (store : FileStore) (j : ι) : ((s.advance i c store).clients j).Prepared high (Drafted high) := by
  by_cases hij : j = i
  · subst hij
    rwa [Sharing.advance_clients_self]
  · rw [Sharing.advance_clients_of_ne _ _ _ _ hij]
    exact hs.prepared j

theorem advance_of_unacknowledged (hs : Filed high s log) {c : Client}
    (hc : c.Prepared high (Drafted high)) {d : Option (Version × Except Fault Outcome)}
    (hd : Unacknowledged d) : Filed high (s.advance i c s.store) (log ++ Sharing.told i d) := by
  have hsame (name : String) : acknowledged name (log ++ Sharing.told i d) = acknowledged name log := by
    rw [acknowledged_append, acknowledged_told hd, List.append_nil]
  refine ⟨hs.high_eq, hs.free, fun name => ?_, fun name hne => ?_, hs.prepared_advance hc s.store⟩
  · rw [hsame]
    exact hs.history name
  · rw [hsame] at hne
    exact hs.storable name hne

theorem advance_of_wrote (hs : Filed high s log) {c : Client} (hc : c.Prepared high (Drafted high))
    {outcome : Outcome} (hchange : outcome.isChange) (hname : Store.isName new.name) {h : History}
    {after : FileStore} (hw : FileStore.Wrote s.store new.name h after)
    (hchained : h.Chained high new.name) (hne : h ≠ []) (hlegible : ∀ v ∈ h, v.Legible) :
    Filed high (s.advance i c after) (log ++ [⟨i, new, .ok outcome⟩]) := by
  refine ⟨hw.high.trans hs.high_eq, fun name => ?_, fun name => ?_, fun name hsome => ?_,
    hs.prepared_advance hc after⟩
  · by_cases hname : name = new.name
    · rw [hname]
      exact hw.free_self (hs.free new.name)
    · exact hw.free hname (hs.free name)
  · rw [acknowledged_append, acknowledged_of_isChange i new hchange]
    by_cases hname : name = new.name
    · subst hname
      exact ⟨h, hw.records hchained hlegible hne, by simp [hne]⟩
    · obtain ⟨h', hrecords, hnil⟩ := hs.history name
      exact ⟨h', hw.records_of_ne hname hrecords, by simp [hnil, Ne.symm hname]⟩
  · by_cases hsame : name = new.name
    · rwa [hsame]
    · rw [acknowledged_append, acknowledged_of_isChange i new hchange, if_neg (Ne.symm hsame),
        List.append_nil] at hsome
      exact hs.storable name hsome

theorem step {t : Sharing ι FileStore} {ds : List (Decision ι)} (hs : Filed high s log)
    (hstep : Sharing.Step s ds t) (hlegible : ∀ d ∈ ds, d.isChange → d.version.Legible) :
    Filed high t (log ++ ds) := by
  cases hstep with
  | start i batch hidle hbatch =>
      rw [(hs.prepared i).high_eq] at hbatch
      exact hs.advance_of_unacknowledged (d := none)
        (.of_no_proposal (c := ⟨(s.clients i).settings, batch, 0, none⟩) (hs.prepared i).high_eq hbatch rfl)
        fun r hr => by cases hr
  | @call i c d store hcall =>
      have hcalled := hs.called i
      rw [hcall] at hcalled
      generalize hnext : (c, d) = next at hcalled
      cases hcalled with
      | kept hprepared hnone =>
          cases hnext
          exact hs.advance_of_unacknowledged hprepared hnone
      | @wrote c new outcome h _ hprepared hchange hname hw hchained hne hread =>
          cases hnext
          have hnew : new.Legible := hlegible ⟨i, new, .ok outcome⟩ (by simp [Sharing.told]) hchange
          exact hs.advance_of_wrote hprepared hchange hname hw hchained hne (hread hnew)

theorem run {t : Sharing ι FileStore} {more : List (Decision ι)} (hs : Filed high s log)
    (hrun : Sharing.Run s more t) (hlegible : ∀ d ∈ more, d.isChange → d.version.Legible) :
    Filed high t (log ++ more) := by
  induction hrun with
  | refl => simpa using hs
  | step _ hstep ih =>
      obtain ⟨hpast, hlast⟩ := List.forall_mem_append.mp hlegible
      rw [← List.append_assoc]
      exact (ih hpast).step hstep hlast

end Filed

end Sync
end ScraperTimeline
