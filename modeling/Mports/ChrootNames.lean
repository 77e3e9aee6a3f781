import Mports.ChrootScript

set_option autoImplicit false

namespace Mports.ChrootNames
open PerlText ChrootScript

theorem isSpace_of_isNameChar {c : Char} (h : isNameChar c = true) : isSpace c = false := by
  by_contra hspace
  rw [Bool.not_eq_false] at hspace
  simp only [isSpace, Bool.or_eq_true, decide_eq_true_eq] at hspace
  rcases hspace with ((((rfl | rfl) | rfl) | rfl) | rfl) | rfl <;> exact absurd h (by decide)

theorem isComponent_plain {text : List Char} (h : isComponent text = true) : ∀ c ∈ text, isSpace c = false := by
  cases text with
  | nil => simp
  | cons c cs =>
    simp only [isComponent, Bool.and_eq_true, List.all_eq_true] at h
    intro d hd
    rcases List.mem_cons.1 hd with rfl | hd
    · exact isSpace_of_isNameChar (by simp [isNameChar, h.1])
    · exact isSpace_of_isNameChar (h.2 d hd)

theorem isWorkerId_plain {text : String} (h : isWorkerId text = true) : ∀ c ∈ text.toList, isSpace c = false := by
  unfold isWorkerId at h
  cases htext : text.toList with
  | nil => simp
  | cons c cs =>
    simp only [htext, Bool.and_eq_true, List.all_eq_true] at h
    intro d hd
    have hdigit : d.isDigit = true := by
      rcases List.mem_cons.1 hd with rfl | hd
      · exact h.1.1
      · exact h.2 d hd
    exact isSpace_of_isNameChar (by simp [isNameChar, Char.isAlphanum, hdigit])

theorem isPrefixPath_plain {text : String} (h : isPrefixPath text = true) :
    ∀ c ∈ text.toList, isSpace c = false := by
  unfold isPrefixPath at h
  split at h
  · rename_i cs htext
    simp only [List.all_eq_true, Bool.and_eq_true] at h
    intro c hc
    rw [htext] at hc
    rcases List.mem_cons.1 hc with rfl | hc
    · decide
    · rcases mem_splitOn '/' hc with rfl | ⟨part, hpart, hc⟩
      · decide
      · exact isSpace_of_isNameChar ((h part hpart).2 c hc)
  · cases h

variable {config : Config}

theorem validated (h : validateZfsConfig config = .ok ()) (hzfs : config.zfs = true) :
    isDatasetName config.zfsDatasetRoot = true ∧ isPrefixPath config.prefixDir = true ∧
      isComponent config.branch.toList = true ∧ isWorkerId config.workerid = true := by
  unfold validateZfsConfig at h
  simp only [hzfs] at h
  grind

theorem isDatasetName_plain {text : String} (h : isDatasetName text = true) : ∀ c ∈ text.toList, isSpace c = false := by
  intro c hc
  rcases mem_splitOn '/' hc with rfl | ⟨part, hpart, hc⟩
  · decide
  · exact isComponent_plain (List.all_eq_true.1 h part hpart) c hc

theorem root_plain (h : validateZfsConfig config = .ok ()) (hzfs : config.zfs = true) :
    ∀ c ∈ (config.chroot.root ++ "/").toList, isSpace c = false := by
  obtain ⟨_, hpath, hbranch, hworker⟩ := validated h hzfs
  have hslash : ∀ c ∈ "/".toList, isSpace c = false := plain_of_any (by decide)
  intro c hc
  simp only [Config.chroot, String.toList_append, List.mem_append, or_assoc] at hc
  rcases hc with hc | hc | hc | hc | hc | hc
  · exact isPrefixPath_plain hpath c hc
  · exact hslash c hc
  · exact isComponent_plain hbranch c hc
  · exact hslash c hc
  · exact isWorkerId_plain hworker c hc
  · exact hslash c hc

theorem worker_plain (h : validateZfsConfig config = .ok ()) (hzfs : config.zfs = true) :
    ∀ c ∈ (Dataset.worker.text config).toList, isSpace c = false := by
  obtain ⟨hroot, _, hbranch, hworker⟩ := validated h hzfs
  have hslash : ∀ c ∈ "/".toList, isSpace c = false := plain_of_any (by decide)
  intro c hc
  simp only [Dataset.text, String.toList_append, List.mem_append, or_assoc] at hc
  rcases hc with hc | hc | hc | hc | hc
  · exact isDatasetName_plain hroot c hc
  · exact hslash c hc
  · exact isComponent_plain hbranch c hc
  · exact hslash c hc
  · exact isWorkerId_plain hworker c hc

theorem snapshot_plain (h : validateZfsConfig config = .ok ()) (hzfs : config.zfs = true) :
    ∀ c ∈ (Dataset.snapshot.text config).toList, isSpace c = false := by
  have htext : Dataset.snapshot.text config = Dataset.worker.text config ++ "@magus-clean" := rfl
  have hname : ∀ c ∈ "@magus-clean".toList, isSpace c = false := plain_of_any (by decide)
  intro c hc
  rw [htext, String.toList_append, List.mem_append] at hc
  rcases hc with hc | hc
  · exact worker_plain h hzfs c hc
  · exact hname c hc

end Mports.ChrootNames
