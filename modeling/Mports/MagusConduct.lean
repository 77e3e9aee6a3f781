import Mports.MagusTasks

set_option autoImplicit false

namespace Mports.MagusConduct
open MagusTables MagusStatements MagusFootprint MagusEffects MagusCluster
open MagusHolders MagusChildren MagusTasks StatementPrograms

/-- The statements each kind of task is confined to; those of `reset` are a worker's
only under a lock of `handled`. -/
def KindOp (handled : Lock → Prop) : Kind → Op → Prop
  | .worker l => WorkerOp (handled l) l
  | .burial l code => BurialOp l code
  | .makeChild l => ChildOp l
  | .killer l => KillerOp l
  | .resetPort p => ResetOp p
  | .index p => IndexOp p
  | _ => fun _ => False

def KindAnswer (handled : Lock → Prop) : Kind → (o : Op) → Except Exn o.Res → Prop
  | .worker l => fun o r => Interrupted o r → handled l
  | _ => fun _ _ => True

def Conduct (handled : Lock → Prop) (c : Cluster) : Prop :=
  ∀ x k q, task c x = some (k, q) →
    Uses (S := magus) (KindOp handled k) (KindAnswer handled k) q

/-- SIGINT reaches a worker in `waitpid` only under a lock of `handled`. -/
def Handles (handled : Lock → Prop) (c : Cluster) : Event → Prop
  | .interrupt pid .int => ∀ l κ, task c (.inl pid) = some (.worker l, .call .waitpid κ) → handled l
  | _ => True

theorem handles_all (c : Cluster) (e : Event) : Handles (fun _ => True) c e := by
  cases e with
  | interrupt pid sig => cases sig <;> simp [Handles]
  | _ => trivial

namespace Conduct
variable {handled : Lock → Prop} {c c' : Cluster} {e : Event}

theorem start (db : Db) : Conduct handled (Cluster.start db) := by
  intro x k q h
  cases x <;> cases h

theorem answer_allowed {db : Db} {x : Owner} {k : Kind} {o : Op} {r : Except Exn o.Res}
    {κ : Except Exn o.Res → Magus Unit} (ht : task c x = some (k, .call o κ))
    (how : Answered c e db x k o r) (hh : Handles handled c e) : KindAnswer handled k o r := by
  cases how with
  | chosen ha =>
    cases k with
    | worker l =>
      intro hi
      cases o with
      | waitpid => rename_i ch; cases ch <;> cases ha
      | _ => cases hi
    | _ => trivial
  | handled => exact fun _ => hh _ _ ht
  | raised hk =>
    cases k with
    | worker l =>
      intro hi
      cases o <;> cases hi
    | _ => trivial
  | _ => exact fun hi => by cases hi

theorem step (h : Conduct handled c) (links : Links c) (hm : Move c e c')
    (hh : Handles handled c e) : Conduct handled c' := by
  intro x k q ht
  rcases accounted links hm x (k, q) ht with ⟨ht, _⟩ | hb
  · exact h x k q ht
  generalize c'.db = db at hb
  cases hb with
  | answered ht how => exact (h _ _ _ ht).2 _ (answer_allowed ht how hh)
  | forked ht => exact makeChild_uses _
  | started ht => exact run_uses _
  | buried ht => exact processDeadChild_uses _ _
  | killing hd => exact killLock_uses _
  | resetting => exact reset_uses _ fun _ hs => hs
  | indexing => exact indexPort_uses _ _ _
  | indexingDepends => exact indexDepends_uses _ _ _
  | _ => exact Uses.ret _

theorem op (h : Conduct handled c) {x : Owner} {k : Kind} {o : Op}
    {κ : Except Exn o.Res → Magus Unit} (ht : task c x = some (k, .call o κ)) :
    KindOp handled k o :=
  (h x k _ ht).1

end Conduct

/-- The base of every run: what links processes to each other and to their locks. -/
structure Regular (handled : Lock → Prop) (c : Cluster) : Prop where
  ids : LockIds c
  links : Links c
  conduct : Conduct handled c

theorem Regular.start {handled : Lock → Prop} {db : Db} (h : ∀ p ph, db.lock p ph = none) :
    Regular handled (Cluster.start db) :=
  ⟨LockIds.start h, Links.start db, Conduct.start db⟩

theorem Regular.step {handled : Lock → Prop} {c c' : Cluster} {e : Event} (h : Regular handled c)
    (hm : Move c e c') (hh : Handles handled c e) : Regular handled c' :=
  ⟨h.ids.step hm, h.links.step hm, h.conduct.step h.links hm hh⟩

/-- The task belongs to a build of the port, from the INSERT of its lock to its deletion. -/
def Builds (p : PortId) (k : Kind) : Prop := ∃ l, k.lock = some l ∧ l.port.id = p ∧ l.phase = .build

theorem status_writer {handled : Lock → Prop} {c : Cluster} {pid : Pid} {k : Kind} {o : Op}
    {κ : Except Exn o.Res → Magus Unit} {ch : Choice} {r : Except Exn o.Res} {db : Db} {p : PortId}
    (conduct : Conduct handled c) (ht : task c (.inl pid) = some (k, .call o κ))
    (ha : answer c.db o ch = some (r, db)) (hne : db.status p ≠ c.db.status p) :
    Builds p k ∨ o = .sql (.updateStatus p .untested) ∨ ∃ q, k = .index q := by
  have hw : ∃ s, o = .sql s ∧ WritesStatus p s := by
    by_contra hno
    exact hne (answer_status ha fun s hs hw => hno ⟨s, hs, hw⟩)
  obtain ⟨s, rfl, hw⟩ := hw
  have hop := conduct.op ht
  have own : ∀ {l : Lock} {ok : Status → Prop}, OwnStmt l ok s → l.port.id = p ∧ l.phase = .build := by
    intro l ok hown
    cases s with
    | updateStatus q st => exact ⟨hown.1.symm.trans hw, hown.2.1⟩
    | insertPort row => cases hown
    | _ => cases hw
  have reset : ∀ {q : PortId}, ResetStmt q s → Op.sql s = .sql (.updateStatus p .untested) := by
    intro q hreset
    cases s with
    | updateStatus q' st =>
      cases hw
      rw [hreset.2]
    | insertPort row => cases hreset
    | _ => cases hw
  cases k with
  | worker l =>
    rcases hop with hop | ⟨_, hop⟩
    · exact .inl ⟨l, rfl, own hop⟩
    · exact .inr (.inl (reset hop))
  | makeChild l => exact .inl ⟨l, rfl, own hop⟩
  | burial l code =>
    rcases hop with rfl | ⟨_, hop⟩
    · cases hw
    · split at hop
      · exact .inr (.inl (reset hop))
      · exact .inl ⟨l, rfl, own hop⟩
  | killer l =>
    rcases hop with rfl | hop
    · cases hw
    · exact .inr (.inl (reset hop))
  | resetPort q => exact .inr (.inl (reset hop))
  | index q => exact .inr (.inr ⟨q, rfl⟩)
  | _ => cases hop

theorem tree_writer {handled : Lock → Prop} {c : Cluster} {pid : Pid} {k : Kind} {o : Op}
    {κ : Except Exn o.Res → Magus Unit} {ch : Choice} {r : Except Exn o.Res} {db : Db}
    (conduct : Conduct handled c) (ht : task c (.inl pid) = some (k, .call o κ))
    (ha : answer c.db o ch = some (r, db)) (hk : ∀ q, k ≠ .index q) : db.tree = c.db.tree := by
  refine answer_tree ha ?_
  rintro s rfl hi
  have hop := conduct.op ht
  have own : ∀ {l : Lock} {ok : Status → Prop}, ¬ OwnStmt l ok s := by
    intro l ok hown
    cases s <;> first | exact False.elim hi | exact False.elim hown
  have reset : ∀ {q : PortId}, ¬ ResetStmt q s := by
    intro q hreset
    cases s <;> first | exact False.elim hi | exact False.elim hreset
  cases k with
  | worker l =>
    rcases hop with hop | ⟨_, hop⟩
    · exact own hop
    · exact reset hop
  | makeChild l => exact own hop
  | burial l code =>
    rcases hop with rfl | ⟨_, hop⟩
    · cases hi
    · split at hop
      · exact reset hop
      · exact own hop
  | killer l =>
    rcases hop with rfl | hop
    · cases hi
    · exact reset hop
  | resetPort q => exact reset hop
  | index q => exact hk q rfl
  | _ => cases hop

end Mports.MagusConduct
