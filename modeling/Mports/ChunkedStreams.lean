import Mathlib.Data.List.TakeWhile

set_option autoImplicit false

namespace Mports.ChunkedStreams

abbrev Chunk (α : Type) := { chunk : List α // chunk ≠ [] }

/-- `patience` is how many more chunks a read of some items waits for, where it has fewer. -/
structure Input (α : Type) where
  buffer : List α
  chunks : List (Chunk α)
  patience : ℕ

variable {α : Type}

def Input.data (s : Input α) : List α := s.buffer ++ s.chunks.flatMap Subtype.val

/-- Wait for `n` items. -/
def gather (n : ℕ) : ℕ → List α → List (Chunk α) → List α × List (Chunk α)
  | patience + 1, buffer, chunk :: chunks =>
    if buffer.length < n then gather n patience (buffer ++ chunk.1) chunks else (buffer, chunk :: chunks)
  | _, buffer, chunks => (buffer, chunks)

def Input.filled (s : Input α) : List α × List (Chunk α) :=
  match s.buffer, s.chunks with
  | [], chunk :: chunks => (chunk.1, chunks)
  | buffer, chunks => (buffer, chunks)

/-- At most `n` items. -/
def Input.read (n : ℕ) (s : Input α) : List α × Input α :=
  let out := gather n s.patience s.filled.1 s.filled.2
  (out.1.take n, { s with buffer := out.1.drop n, chunks := out.2 })

section Lines
variable [DecidableEq α] (sep : α)

def readTo : List α → List (Chunk α) → List α × List α × List (Chunk α)
  | buffer, [] =>
    if sep ∈ buffer then (buffer.takeWhile (· ≠ sep) ++ [sep], (buffer.dropWhile (· ≠ sep)).tail, []) else (buffer, [], [])
  | buffer, chunk :: chunks =>
    if sep ∈ buffer then (buffer.takeWhile (· ≠ sep) ++ [sep], (buffer.dropWhile (· ≠ sep)).tail, chunk :: chunks)
    else readTo (buffer ++ chunk.1) chunks

def Input.readLine (s : Input α) : Option (List α) × Input α :=
  let out := readTo sep s.buffer s.chunks
  (if out.1 = [] then none else some out.1, { s with buffer := out.2.1, chunks := out.2.2 })

end Lines

theorem gather_data (n patience : ℕ) (buffer : List α) (chunks : List (Chunk α)) :
    (gather n patience buffer chunks).1 ++ (gather n patience buffer chunks).2.flatMap Subtype.val =
      buffer ++ chunks.flatMap Subtype.val := by
  induction patience generalizing buffer chunks with
  | zero => rw [gather.eq_2 _ _ _ _ (by simp)]
  | succ patience ih =>
    cases chunks with
    | nil => rw [gather.eq_2 _ _ _ _ (by simp)]
    | cons chunk chunks =>
      rw [gather]
      split_ifs
      · rw [ih, List.flatMap_cons, List.append_assoc]
      · rfl

theorem gather_nonempty (n patience : ℕ) {buffer : List α} (chunks : List (Chunk α)) (h : buffer ≠ []) :
    (gather n patience buffer chunks).1 ≠ [] := by
  induction patience generalizing buffer chunks with
  | zero => rwa [gather.eq_2 _ _ _ _ (by simp)]
  | succ patience ih =>
    cases chunks with
    | nil => rwa [gather.eq_2 _ _ _ _ (by simp)]
    | cons chunk chunks =>
      rw [gather]
      split_ifs
      · exact ih _ (List.append_ne_nil_of_left_ne_nil h _)
      · exact h

theorem Input.filled_data (s : Input α) : s.filled.1 ++ s.filled.2.flatMap Subtype.val = s.data := by
  unfold Input.filled Input.data
  split
  · rename_i chunk chunks hbuffer hchunks
    rw [hbuffer, hchunks]
    rfl
  · rfl

theorem Input.filled_nonempty {s : Input α} (h : s.data ≠ []) : s.filled.1 ≠ [] := by
  unfold Input.filled
  split
  · rename_i chunk chunks _ _
    exact chunk.2
  · rename_i hfilled
    intro hbuffer
    dsimp only at hbuffer
    cases hchunks : s.chunks with
    | nil => exact h (by simp [Input.data, hbuffer, hchunks])
    | cons chunk chunks => exact hfilled chunk chunks hbuffer hchunks

theorem Input.read_data (n : ℕ) (s : Input α) : (s.read n).1 ++ (s.read n).2.data = s.data := by
  unfold Input.read Input.data
  dsimp only
  rw [← List.append_assoc, List.take_append_drop, gather_data]
  exact s.filled_data

theorem Input.read_length (n : ℕ) (s : Input α) : (s.read n).1.length ≤ n := List.length_take_le _ _

theorem Input.read_nonempty {n : ℕ} {s : Input α} (hn : n ≠ 0) (h : s.data ≠ []) : (s.read n).1 ≠ [] := by
  have hgather := gather_nonempty n s.patience s.filled.2 (Input.filled_nonempty h)
  intro hnil
  rcases List.take_eq_nil_iff.1 hnil with hzero | hempty
  · exact hn hzero
  · exact hgather hempty

section Lines
variable [DecidableEq α] {sep : α}

theorem cut_eq {line rest : List α} (h : sep ∉ line) :
    (line ++ sep :: rest).takeWhile (· ≠ sep) = line ∧ (line ++ sep :: rest).dropWhile (· ≠ sep) = sep :: rest := by
  have hline : ∀ x ∈ line, decide (x ≠ sep) = true := fun x hx => decide_eq_true fun heq => h (heq ▸ hx)
  constructor
  · rw [List.takeWhile_append_of_pos hline, List.takeWhile_cons_of_neg (by simp), List.append_nil]
  · rw [List.dropWhile_append_of_pos hline, List.dropWhile_cons_of_neg (by simp)]

theorem readTo_eq {line rest : List α} (h : sep ∉ line) (chunks : List (Chunk α)) (buffer : List α)
    (hdata : buffer ++ chunks.flatMap Subtype.val = line ++ sep :: rest) :
    (readTo sep buffer chunks).1 = line ++ [sep] ∧
      (readTo sep buffer chunks).2.1 ++ (readTo sep buffer chunks).2.2.flatMap Subtype.val = rest := by
  induction chunks generalizing buffer with
  | nil =>
    rw [List.flatMap_nil, List.append_nil] at hdata
    rw [readTo, hdata, if_pos (by simp), (cut_eq h).1, (cut_eq h).2]
    exact ⟨rfl, List.append_nil _⟩
  | cons chunk chunks ih =>
    rw [readTo]
    split_ifs with hsep
    · obtain ⟨a, b, rfl, ha⟩ := List.eq_append_cons_of_mem hsep
      rw [List.append_assoc, List.cons_append] at hdata
      have hline := (cut_eq ha).1.symm.trans ((congrArg (List.takeWhile (· ≠ sep)) hdata).trans (cut_eq h).1)
      have hrest := (cut_eq ha).2.symm.trans ((congrArg (List.dropWhile (· ≠ sep)) hdata).trans (cut_eq h).2)
      rw [(cut_eq ha).1, (cut_eq ha).2, hline]
      exact ⟨rfl, (List.cons.inj hrest).2⟩
    · rw [List.flatMap_cons, ← List.append_assoc] at hdata
      exact ih _ hdata

theorem Input.readLine_eq {line rest : List α} (h : sep ∉ line) (s : Input α) (hdata : s.data = line ++ sep :: rest) :
    (s.readLine sep).1 = some (line ++ [sep]) ∧ (s.readLine sep).2.data = rest := by
  have hread := readTo_eq h s.chunks s.buffer hdata
  unfold Input.readLine Input.data
  dsimp only
  rw [hread.1, if_neg (by simp)]
  exact ⟨rfl, hread.2⟩

end Lines

end Mports.ChunkedStreams
