import Mports.MagusFootprint

set_option autoImplicit false

namespace Mports.MagusEffects
open MagusTables MagusStatements

def WritesStatus (q : PortId) : Stmt → Prop
  | .updateStatus p _ => p = q
  | .insertPort row => row.id = q
  | _ => False

def WritesRow (q : PortId) (qh : Phase) : Stmt → Prop
  | .insertPhaseResult p ph | .updatePhaseResult p ph _ _ | .updateResultStatus p ph _ =>
      p = q ∧ ph = qh
  | .insertPort row => row.id = q
  | _ => False

def WritesLog (q : PortId) : Stmt → Prop
  | .deleteLog p | .insertLog p _ => p = q
  | _ => False

def WritesPhaseLog (q : PortId) (qh : Phase) : Stmt → Prop
  | .deletePhaseLog p ph | .insertPhaseLog p ph _ => p = q ∧ ph = qh
  | _ => False

def Indexes : Stmt → Prop
  | .insertPort _ | .insertDepend _ => True
  | _ => False

section Exec
variable {db db' : Db} {s : Stmt} {x : s.Res}

theorem exec_status (h : s.exec db = some (x, db')) {q : PortId} (hw : ¬ WritesStatus q s) :
    db'.status q = db.status q := by
  cases s with
  | updateStatus p st =>
    cases h
    exact Function.update_of_ne (fun he => hw he.symm) _ _
  | insertPort row =>
    obtain ⟨T, _, hT⟩ := Option.map_eq_some_iff.1 h
    cases hT
    exact Function.update_of_ne (fun he => hw he.symm) _ _
  | insertDepend d =>
    obtain ⟨T, _, hT⟩ := Option.map_eq_some_iff.1 h
    cases hT
    rfl
  | insertPhaseResult | insertLog | insertPhaseLog =>
    simp only [Stmt.exec, Option.ite_none_right_eq_some] at h
    cases h.2
    rfl
  | deleteLock l =>
    cases h
    split <;> rfl
  | _ =>
    cases h
    rfl

theorem exec_phaseRow (h : s.exec db = some (x, db')) {q : PortId} {qh : Phase}
    (hw : ¬ WritesRow q qh s) : db'.phaseRow q qh = db.phaseRow q qh := by
  cases s with
  | updatePhaseResult | updateResultStatus =>
    cases h
    exact put_ne fun hp hh => hw ⟨hp.symm, hh.symm⟩
  | insertPhaseResult =>
    simp only [Stmt.exec, Option.ite_none_right_eq_some] at h
    cases h.2
    exact put_ne fun hp hh => hw ⟨hp.symm, hh.symm⟩
  | insertPort row =>
    obtain ⟨T, _, hT⟩ := Option.map_eq_some_iff.1 h
    cases hT
    exact congrFun (Function.update_of_ne (fun he => hw he.symm) _ _) qh
  | insertDepend d =>
    obtain ⟨T, _, hT⟩ := Option.map_eq_some_iff.1 h
    cases hT
    rfl
  | insertLog | insertPhaseLog =>
    simp only [Stmt.exec, Option.ite_none_right_eq_some] at h
    cases h.2
    rfl
  | deleteLock l =>
    cases h
    split <;> rfl
  | _ =>
    cases h
    rfl

theorem exec_log (h : s.exec db = some (x, db')) {q : PortId} (hw : ¬ WritesLog q s) :
    db'.log q = db.log q := by
  cases s with
  | deleteLog p =>
    cases h
    exact Function.update_of_ne (fun he => hw he.symm) _ _
  | insertLog p data =>
    simp only [Stmt.exec, Option.ite_none_right_eq_some] at h
    cases h.2
    exact Function.update_of_ne (fun he => hw he.symm) _ _
  | insertPort | insertDepend =>
    obtain ⟨T, _, hT⟩ := Option.map_eq_some_iff.1 h
    cases hT
    rfl
  | insertPhaseResult | insertPhaseLog =>
    simp only [Stmt.exec, Option.ite_none_right_eq_some] at h
    cases h.2
    rfl
  | deleteLock l =>
    cases h
    split <;> rfl
  | _ =>
    cases h
    rfl

theorem exec_phaseLog (h : s.exec db = some (x, db')) {q : PortId} {qh : Phase}
    (hw : ¬ WritesPhaseLog q qh s) : db'.phaseLog q qh = db.phaseLog q qh := by
  cases s with
  | deletePhaseLog p ph =>
    cases h
    exact put_ne fun hp hh => hw ⟨hp.symm, hh.symm⟩
  | insertPhaseLog p ph data =>
    simp only [Stmt.exec, Option.ite_none_right_eq_some] at h
    cases h.2
    exact put_ne fun hp hh => hw ⟨hp.symm, hh.symm⟩
  | insertPort | insertDepend =>
    obtain ⟨T, _, hT⟩ := Option.map_eq_some_iff.1 h
    cases hT
    rfl
  | insertPhaseResult | insertLog =>
    simp only [Stmt.exec, Option.ite_none_right_eq_some] at h
    cases h.2
    rfl
  | deleteLock l =>
    cases h
    split <;> rfl
  | _ =>
    cases h
    rfl

theorem exec_lock (h : s.exec db = some (x, db')) (hw : ∀ l, s ≠ .deleteLock l) :
    db'.lock = db.lock := by
  cases s with
  | deleteLock l => exact absurd rfl (hw l)
  | insertPort | insertDepend =>
    obtain ⟨T, _, hT⟩ := Option.map_eq_some_iff.1 h
    cases hT
    rfl
  | insertPhaseResult | insertLog | insertPhaseLog =>
    simp only [Stmt.exec, Option.ite_none_right_eq_some] at h
    cases h.2
    rfl
  | _ =>
    cases h
    rfl

theorem exec_tree (h : s.exec db = some (x, db')) (hw : ¬ Indexes s) : db'.tree = db.tree := by
  cases s with
  | insertPort | insertDepend => exact absurd trivial hw
  | insertPhaseResult | insertLog | insertPhaseLog =>
    simp only [Stmt.exec, Option.ite_none_right_eq_some] at h
    cases h.2
    rfl
  | deleteLock l =>
    cases h
    split <;> rfl
  | _ =>
    cases h
    rfl

theorem exec_rest (h : s.exec db = some (x, db')) :
    db'.nextLock = db.nextLock ∧ db'.pkgfiles = db.pkgfiles := by
  cases s with
  | insertPort | insertDepend =>
    obtain ⟨T, _, hT⟩ := Option.map_eq_some_iff.1 h
    cases hT
    exact ⟨rfl, rfl⟩
  | insertPhaseResult | insertLog | insertPhaseLog =>
    simp only [Stmt.exec, Option.ite_none_right_eq_some] at h
    cases h.2
    exact ⟨rfl, rfl⟩
  | deleteLock l =>
    cases h
    split <;> exact ⟨rfl, rfl⟩
  | _ =>
    cases h
    exact ⟨rfl, rfl⟩

end Exec

section Answer
variable {db db' : Db} {o : Op} {ch : Choice} {r : Except Exn o.Res}

theorem answer_sql {s : Stmt} {r : Except Exn s.Res}
    (h : answer db (.sql s) ch = some (r, db')) :
    (∃ x, r = .ok x ∧ s.exec db = some (x, db')) ∨
      ∃ e, ch = .fail e ∧ r = .error e ∧ Matches "DBI" e ∧ db' = db := by
  cases ch with
  | done =>
    obtain ⟨⟨x, u⟩, hx, he⟩ := Option.map_eq_some_iff.1 h
    cases he
    exact .inl ⟨x, rfl, hx⟩
  | fail e =>
    simp only [answer, Option.ite_none_right_eq_some] at h
    cases h.2
    exact .inr ⟨e, rfl, rfl, h.1, rfl⟩
  | _ => cases h

theorem answer_ext {x : External} {r : Except Exn x.Res}
    (h : answer db (.ext x) ch = some (r, db')) :
    (∃ y, r = .ok y ∧ x.run db ch = some (y, db')) ∨ ∃ e, ch = .fail e ∧ r = .error e ∧ db' = db := by
  cases ch with
  | fail e =>
    cases h
    exact .inr ⟨e, rfl, rfl, rfl⟩
  | _ =>
    obtain ⟨⟨y, u⟩, hy, he⟩ := Option.map_eq_some_iff.1 h
    cases he
    exact .inl ⟨y, rfl, hy⟩

theorem run_db {x : External} {y : x.Res} (h : x.run db ch = some (y, db')) :
    db' = db ∨ ∃ row, x = .command (.copyOut row) ∧
      db' = { db with pkgfiles := row.pkgfile :: db.pkgfiles } := by
  cases x with
  | command c =>
    cases ch with
    | command st out =>
      obtain ⟨u, hu, he⟩ := Option.map_eq_some_iff.1 h
      cases he
      cases c with
      | copyIn row =>
        simp only [Command.run, Option.ite_none_right_eq_some, Option.some.injEq] at hu
        exact .inl hu.2.symm
      | copyOut row =>
        simp only [Command.run, Option.some.injEq] at hu
        split at hu
        · exact .inr ⟨row, rfl, hu.symm⟩
        · exact .inl hu.symm
      | _ =>
        cases hu
        exact .inl rfl
    | _ => cases h
  | _ =>
    cases ch <;> cases h
    exact .inl rfl

theorem answer_cases (h : answer db o ch = some (r, db')) :
    db' = db ∨ (∃ s x, o = .sql s ∧ s.exec db = some (x, db')) ∨
      ∃ row, o = .ext (.command (.copyOut row)) ∧
        db' = { db with pkgfiles := row.pkgfile :: db.pkgfiles } := by
  cases o with
  | sql s =>
    rcases answer_sql h with ⟨x, _, hx⟩ | ⟨e, _, _, _, hdb⟩
    · exact .inr (.inl ⟨s, x, rfl, hx⟩)
    · exact .inl hdb
  | ext x =>
    rcases answer_ext h with ⟨y, _, hy⟩ | ⟨e, _, _, hdb⟩
    · rcases run_db hy with hdb | ⟨row, rfl, hdb⟩
      · exact .inl hdb
      · exact .inr (.inr ⟨row, rfl, hdb⟩)
    · exact .inl hdb
  | fork ph =>
    cases ch <;> cases h
    exact .inl rfl
  | waitpid => cases ch <;> cases h
  | waitpidAgain => cases ch <;> cases h

theorem answer_status (h : answer db o ch = some (r, db')) {q : PortId}
    (hw : ∀ s, o = .sql s → ¬ WritesStatus q s) : db'.status q = db.status q := by
  rcases answer_cases h with rfl | ⟨s, x, rfl, hx⟩ | ⟨row, _, rfl⟩
  · rfl
  · exact exec_status hx (hw s rfl)
  · rfl

theorem answer_phaseRow (h : answer db o ch = some (r, db')) {q : PortId} {qh : Phase}
    (hw : ∀ s, o = .sql s → ¬ WritesRow q qh s) : db'.phaseRow q qh = db.phaseRow q qh := by
  rcases answer_cases h with rfl | ⟨s, x, rfl, hx⟩ | ⟨row, _, rfl⟩
  · rfl
  · exact exec_phaseRow hx (hw s rfl)
  · rfl

theorem answer_log (h : answer db o ch = some (r, db')) {q : PortId}
    (hw : ∀ s, o = .sql s → ¬ WritesLog q s) : db'.log q = db.log q := by
  rcases answer_cases h with rfl | ⟨s, x, rfl, hx⟩ | ⟨row, _, rfl⟩
  · rfl
  · exact exec_log hx (hw s rfl)
  · rfl

theorem answer_phaseLog (h : answer db o ch = some (r, db')) {q : PortId} {qh : Phase}
    (hw : ∀ s, o = .sql s → ¬ WritesPhaseLog q qh s) : db'.phaseLog q qh = db.phaseLog q qh := by
  rcases answer_cases h with rfl | ⟨s, x, rfl, hx⟩ | ⟨row, _, rfl⟩
  · rfl
  · exact exec_phaseLog hx (hw s rfl)
  · rfl

theorem answer_lock (h : answer db o ch = some (r, db'))
    (hw : ∀ l, o ≠ .sql (.deleteLock l)) : db'.lock = db.lock := by
  rcases answer_cases h with rfl | ⟨s, x, rfl, hx⟩ | ⟨row, _, rfl⟩
  · rfl
  · exact exec_lock hx fun l hl => hw l (congrArg Op.sql hl)
  · rfl

theorem exec_deleteLock {l : Lock} {x : Unit} (h : (Stmt.deleteLock l).exec db = some (x, db')) :
    db' = if db.Locked l then { db with lock := put db.lock l.port.id l.phase none } else db := by
  cases h
  rfl

theorem answer_lock_sub (h : answer db o ch = some (r, db')) {p : PortId} {ph : Phase}
    {row : LockRow} (hr : db'.lock p ph = some row) : db.lock p ph = some row := by
  rcases answer_cases h with rfl | ⟨s, x, rfl, hx⟩ | ⟨row, _, rfl⟩
  · exact hr
  · by_cases hs : ∃ l, s = .deleteLock l
    · obtain ⟨l, rfl⟩ := hs
      rw [exec_deleteLock hx] at hr
      split at hr
      · simp only [put_apply] at hr
        split at hr
        · cases hr
        · exact hr
      · exact hr
    · rwa [exec_lock hx fun l hl => hs ⟨l, hl⟩] at hr
  · exact hr

theorem answer_tree (h : answer db o ch = some (r, db'))
    (hw : ∀ s, o = .sql s → ¬ Indexes s) : db'.tree = db.tree := by
  rcases answer_cases h with rfl | ⟨s, x, rfl, hx⟩ | ⟨row, _, rfl⟩
  · rfl
  · exact exec_tree hx (hw s rfl)
  · rfl

theorem answer_ports (h : answer db o ch = some (r, db')) : db.tree.ports ⊆ db'.tree.ports := by
  rcases answer_cases h with rfl | ⟨s, x, rfl, hx⟩ | ⟨row, _, rfl⟩
  · exact fun _ hp => hp
  · by_cases hi : Indexes s
    · cases s with
      | insertPort row =>
        obtain ⟨T, hT, he⟩ := Option.map_eq_some_iff.1 hx
        cases he
        simp only [Tree.insertPort, Option.dite_none_left_eq_some, Option.some.injEq] at hT
        obtain ⟨_, rfl⟩ := hT
        exact List.subset_append_left _ _
      | insertDepend d =>
        obtain ⟨T, hT, he⟩ := Option.map_eq_some_iff.1 hx
        cases he
        simp only [Tree.insertDepend, Option.dite_none_right_eq_some, Option.some.injEq] at hT
        obtain ⟨_, rfl⟩ := hT
        exact fun _ hp => hp
      | _ => cases hi
    · rw [exec_tree hx hi]
      exact fun _ hp => hp
  · exact fun _ hp => hp

theorem answer_depends (h : answer db o ch = some (r, db')) : db.tree.depends ⊆ db'.tree.depends := by
  rcases answer_cases h with rfl | ⟨s, x, rfl, hx⟩ | ⟨row, _, rfl⟩
  · exact fun _ hd => hd
  · by_cases hi : Indexes s
    · cases s with
      | insertPort row =>
        obtain ⟨T, hT, he⟩ := Option.map_eq_some_iff.1 hx
        cases he
        simp only [Tree.insertPort, Option.dite_none_left_eq_some, Option.some.injEq] at hT
        obtain ⟨_, rfl⟩ := hT
        exact fun _ hd => hd
      | insertDepend d =>
        obtain ⟨T, hT, he⟩ := Option.map_eq_some_iff.1 hx
        cases he
        simp only [Tree.insertDepend, Option.dite_none_right_eq_some, Option.some.injEq] at hT
        obtain ⟨_, rfl⟩ := hT
        exact List.subset_append_left _ _
      | _ => cases hi
    · rw [exec_tree hx hi]
      exact fun _ hd => hd
  · exact fun _ hd => hd

theorem answer_nextLock (h : answer db o ch = some (r, db')) : db'.nextLock = db.nextLock := by
  rcases answer_cases h with rfl | ⟨s, x, rfl, hx⟩ | ⟨row, _, rfl⟩
  · rfl
  · exact (exec_rest hx).1
  · rfl

theorem answer_pkgfiles (h : answer db o ch = some (r, db')) : db.pkgfiles ⊆ db'.pkgfiles := by
  rcases answer_cases h with rfl | ⟨s, x, rfl, hx⟩ | ⟨row, _, rfl⟩
  · exact fun _ hf => hf
  · exact (exec_rest hx).2 ▸ fun _ hf => hf
  · exact List.subset_cons_self _ _

end Answer
end Mports.MagusEffects
