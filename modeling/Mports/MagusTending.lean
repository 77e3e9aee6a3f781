import Mports.MagusEndings

set_option autoImplicit false

namespace Mports.MagusTending
open MagusTables MagusStatements MagusWorker MagusEffects MagusCluster
open MagusHolders MagusChildren MagusTasks MagusConduct MagusEndings StatementPrograms

def under : Kind → Option Lock
  | .childCorpse l _ | .killer l => some l
  | k => k.lock

section Tends
variable (kept : Lock → Option Op → (Db → Prop) → Prop) (Over : Lock → Db → Prop)

def Tends : Kind → Magus Unit → Db → Prop
  | .worker l, q, db => Outline (workerSetting (kept l) (Over l) l) (workerPost (Over l)) q db
  | .makeChild l, q, db => ∃ hurt : Prop, Outline (childSetting (kept l) (Over l))
      (fun _ => Told (Over l)) q (db, hurt) ∧ (hurt → ¬ q.Ended)
  | .childCorpse l st, q, db =>
      Outline (killerSetting (kept l) (Over l) l) (fun _ t => st.value = 0 → Over l t) q db
  | .corpse l code, q, db | .burial l code, q, db =>
      Outline (burialSetting (kept l) (Over l) l code) (Buried (Over l) code) q db
  | .killer l, q, db => Outline (killerSetting (kept l) (Over l) l) (fun _ _ => True) q db
  | _, _, _ => True

structure Programs : Prop where
  settled : ∀ l, kept l none (Over l)
  run : ∀ l s, Outline (workerSetting (kept l) (Over l) l) (workerPost (Over l)) (run l) s
  makeChild : ∀ l s,
    Outline (childSetting (kept l) (Over l)) (fun _ => Told (Over l)) (makeChild l) s
  processDeadChild : ∀ l code s, (code = 6 ∨ Over l s) → Outline
    (burialSetting (kept l) (Over l) l code) (Buried (Over l) code) (processDeadChild l code) s
  killLock : ∀ l s, Outline (killerSetting (kept l) (Over l) l) (fun _ _ => True) (killLock l) s

/-- While a phase is not over, nothing that happens to its worker or its make child is
passed over in silence. -/
structure Reports (c : Cluster) (e : Event) : Prop where
  worker : ∀ db x l o κ r, task c x = some (.worker l, .call o κ) →
    Answered c e db x (.worker l) o r → ¬ Over l c.db → ¬ Silences l c.db o r
  child : ∀ db x l o κ err, task c x = some (.makeChild l, .call o κ) →
    Answered c e db x (.makeChild l) o (.error err) → ¬ Over l c.db → ¬ (κ (.error err)).Ended
  signal : ∀ pid sig core l q, e = .signal pid sig core →
    task c (.inl pid) = some (.worker l, q) → Over l c.db

end Tends

theorem silent_exn (sig : Interrupt) : Silent sig.exn := by
  cases sig <;> decide +kernel

section Steps
variable {kept : Lock → Option Op → (Db → Prop) → Prop} {Over : Lock → Db → Prop}
  {c c' : Cluster} {e : Event}

theorem waited_corpse {db : Db} {x : Owner} {l : Lock} {st : WaitStatus}
    (how : Answered c e db x (.worker l) .waitpid (.ok (.done st))) :
    ∃ child, task c (.inl child) = some (.childCorpse l st, .ret ()) := by
  cases how with
  | waited hchild => exact ⟨_, hchild⟩
  | @chosen _ ch _ _ _ _ ha => cases ch <;> cases ha

theorem tends_rely {k : Kind} {q : Magus Unit} {s t : Db} (h : Tends kept Over k q s)
    (hkept : ∀ l, under k = some l → ∀ P, kept l q.pending P → P s → P t) :
    Tends kept Over k q t := by
  cases k with
  | worker l | corpse l code | burial l code | childCorpse l st | killer l =>
    exact Outline.rely h (hkept l rfl)
  | makeChild l =>
    obtain ⟨hurt, hout, hend⟩ := h
    exact ⟨hurt, hout.rely ⟨Iff.rfl, hkept l rfl⟩, hend⟩
  | _ => trivial

theorem tends_answered (h : ∀ x k q, task c x = some (k, q) → Tends kept Over k q c.db) {x : Owner}
    {k : Kind} {o : Op} {κ : Except Exn o.Res → Magus Unit} {r : Except Exn o.Res} {db : Db}
    (ht : task c x = some (k, .call o κ)) (how : Answered c e db x k o r) (hr : Reports Over c e) :
    Tends kept Over k (κ r) db := by
  have hold := h x k _ ht
  cases k with
  | worker l =>
    refine Outline.answer hold ⟨how.effect, hr.worker db x l o κ r ht how, ?_, ?_⟩
    · rintro st err rfl rfl
      cases how with
      | chosen ha =>
        rcases answer_sql ha with ⟨_, hr, _⟩ | ⟨_, _, hr, hdbi, _⟩ <;> cases hr
        exact .inl hdbi
      | raised => exact .inr (silent_exn _)
    · unfold Reported
      split
      · rename_i st
        obtain ⟨child, hchild⟩ := waited_corpse how
        have hout : Outline (killerSetting (kept l) (Over l) l) (fun _ u => st.value = 0 → Over l u)
          (.ret ()) c.db := h _ _ _ hchild
        exact hout.ended_ret
      · trivial
  | makeChild l =>
    obtain ⟨hurt, hout, _⟩ := hold
    refine ⟨_, hout.answer ⟨how.effect, Iff.rfl⟩, ?_⟩
    rintro ⟨⟨err, rfl⟩, hover⟩
    exact hr.child db x l o κ err ht how hover
  | corpse l code | burial l code | childCorpse l st | killer l =>
    exact Outline.answer hold how.effect
  | _ => trivial

theorem tends_step (programs : Programs kept Over) (links : Links c) (hm : Move c e c')
    (hr : Reports Over c e)
    (bystander : ∀ x k q l P, task c x = some (k, q) → under k = some l →
      Interferes c e x c'.db → kept l q.pending P → P c.db → P c'.db)
    (h : ∀ x k q, task c x = some (k, q) → Tends kept Over k q c.db) :
    ∀ x k q, task c' x = some (k, q) → Tends kept Over k q c'.db := by
  intro x k q ht
  rcases accounted links hm x _ ht with ⟨hold, hi⟩ | hb
  · exact tends_rely (h x k q hold) fun l hl P => bystander x k q l P hold hl hi
  clear bystander
  generalize c'.db = db at hb
  have corpse : ∀ {l : Lock} {code : ℕ}, code = 6 ∨ Over l c.db →
      Tends kept Over (.corpse l code) (.ret ()) c.db :=
    fun hover u hu => hover.imp_right fun hover => hu _ (programs.settled _) hover
  cases hb with
  | answered hold how => exact tends_answered h hold how hr
  | forked hold => exact ⟨False, programs.makeChild _ _, False.elim⟩
  | workerSignaled hold => exact corpse (.inr (hr.signal _ _ _ _ _ rfl hold))
  | childSignaled hold =>
    intro u hu hzero
    cases WaitStatus.value_eq_zero.1 hzero
  | @workerEnded pid l q st hold hst =>
    have hout := h _ _ _ hold
    cases q with
    | ret a =>
      cases hst
      exact corpse (.inr (Outline.ended_ret hout))
    | raise err =>
      cases hst
      exact corpse (.inr (Outline.ended_raise hout))
    | exit code =>
      cases hst
      refine corpse ((Outline.ended_exit hout).imp (fun hcode => ?_) id)
      rw [hcode]
      rfl
    | call => cases hst
  | @childEnded pid l q st hold hst =>
    obtain ⟨hurt, hout, hend⟩ := h _ _ _ hold
    have htold : Over l c.db := by
      cases q with
      | ret => exact (Outline.ended_ret hout).resolve_left fun hhurt => hend hhurt trivial
      | raise => exact (Outline.ended_raise hout).resolve_left fun hhurt => hend hhurt trivial
      | exit => exact (Outline.ended_exit hout).resolve_left fun hhurt => hend hhurt trivial
      | call => cases hst
    exact fun u hu _ => hu _ (programs.settled _) htold
  | postponed hold => exact corpse (Outline.ended_raise (h _ _ _ hold))
  | @abandoned machine kid pid l code q hold =>
    have hout := h _ _ _ hold
    refine corpse ?_
    cases q with
    | ret => exact Outline.ended_ret hout
    | raise => exact Outline.ended_raise hout
    | exit => exact Outline.ended_exit hout
    | call => exact (Outline.needs hout).1
  | started hold => exact programs.run _ _
  | buried hold => exact programs.processDeadChild _ _ _ (Outline.ended_ret (h _ _ _ hold))
  | killing hd => exact programs.killLock _ _
  | _ => trivial

/-- Lock ids count up, and a task knows none that is still to come. -/
def Known (c : Cluster) : Prop :=
  ∀ x k q l, task c x = some (k, q) → under k = some l → l.id < c.db.nextLock

theorem nextLock_mono {y : Option Owner} {db : Db} (h : Moved c e y db) :
    c.db.nextLock ≤ db.nextLock := by
  cases h with
  | still => exact le_refl _
  | tick => exact le_refl _
  | insert => exact Nat.le_succ _
  | call _ ha => exact (answer_nextLock ha).ge

theorem known_step {handled : Lock → Prop} (regular : Regular handled c) (hm : Move c e c')
    (h : Known c) : Known c' := by
  intro x k q l ht hl
  obtain ⟨y, hmoved⟩ := moved hm
  have hle := nextLock_mono hmoved
  have haccounted := accounted regular.links hm x _ ht
  generalize c'.db = db at hle haccounted ⊢
  have old : ∀ {x₀ k₀ q₀}, task c x₀ = some (k₀, q₀) → under k₀ = some l → l.id < db.nextLock :=
    fun ht hl => lt_of_lt_of_le (h _ _ _ l ht hl) hle
  rcases haccounted with ⟨hold, _⟩ | hb
  · exact old hold hl
  cases hb with
  | answered hold how => exact old hold hl
  | forked hold | workerSignaled hold | childSignaled hold | workerEnded hold | childEnded hold
  | postponed hold | abandoned hold | started hold | buried hold => exact old hold hl
  | @killing machine _ l' todo hd =>
    cases hl
    refine (regular.ids.named l (.inr ⟨.inr machine, ?_⟩)).1
    simp [kills, view, hd, Daemon.kills]
  | inserted hold hfree =>
    cases hl
    exact Nat.lt_succ_self _
  | _ => cases hl

theorem locked_of_insert {db : Db} {row : PortRow} {ph : Phase} {machine : MachineId} {l : Lock}
    (hid : l.id < db.nextLock) (h : (withLock db row ph machine).Locked l) : db.Locked l := by
  unfold Db.Locked at *
  change (put db.lock row.id ph _ l.port.id l.phase).map _ = _ at h
  rw [put_apply] at h
  split at h
  · exact absurd (Option.some.inj h) (Nat.ne_of_gt hid)
  · exact h

section Deletion
variable {pid : Pid} {k : Kind} {o : Op} {κ : Except Exn o.Res → Magus Unit} {ch : Choice}
  {r : Except Exn o.Res} {db : Db} {p : PortId} {ph : Phase}

theorem lock_deleted (ha : answer c.db o ch = some (r, db)) (hrow : c.db.lock p ph ≠ none)
    (hgone : db.lock p ph = none) :
    ∃ l, o = .sql (.deleteLock l) ∧ c.db.Locked l ∧ l.port.id = p ∧ l.phase = ph := by
  by_cases hw : ∃ l, o = .sql (.deleteLock l)
  · obtain ⟨l, rfl⟩ := hw
    rcases answer_sql ha with ⟨x, _, hx⟩ | ⟨_, _, _, _, rfl⟩
    · rw [exec_deleteLock hx] at hgone
      split at hgone
      · rename_i hl
        refine ⟨l, rfl, hl, ?_⟩
        by_contra hne
        simp only [put_apply] at hgone
        rw [if_neg fun h => hne ⟨h.1.symm, h.2.symm⟩] at hgone
        exact hrow hgone
      · exact absurd hgone hrow
    · exact absurd hgone hrow
  · rw [answer_lock ha fun l h => hw ⟨l, h⟩] at hgone
    exact absurd hgone hrow

theorem over_deleted {handled : Lock → Prop} (conduct : Conduct handled c)
    (h : ∀ x k q, task c x = some (k, q) → Tends kept Over k q c.db)
    (ht : task c (.inl pid) = some (k, .call o κ)) (ha : answer c.db o ch = some (r, db))
    (hrow : c.db.lock p ph ≠ none) (hgone : db.lock p ph = none) :
    ∃ l, o = .sql (.deleteLock l) ∧ c.db.Locked l ∧ l.port.id = p ∧ l.phase = ph ∧ Over l c.db := by
  obtain ⟨l, rfl, hlocked, hport, hphase⟩ := lock_deleted ha hrow hgone
  refine ⟨l, rfl, hlocked, hport, hphase, ?_⟩
  have hop := conduct.op ht
  have hout := h _ _ _ ht
  cases k with
  | worker l₁ => rcases hop with hop | ⟨_, hop⟩ <;> cases hop
  | burial l₁ code =>
    rcases hop with hop | ⟨_, hop⟩
    · cases hop
      exact (Outline.needs hout).2 rfl
    · split at hop <;> cases hop
  | killer l₁ =>
    rcases hop with hop | hop
    · cases hop
      exact Outline.needs hout rfl
    · cases hop
  | _ => cases hop

end Deletion
end Steps
end Mports.MagusTending
