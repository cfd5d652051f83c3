import DistLabs.Mr.Recovery

/-!
# Counting words

The application `wc` on a job that may lose workers: the output files list every
word of the input files once, with the number of its occurrences.
-/

namespace DistLabs.Mr

/-! ## The application -/

/-- The loop of `strings.FieldsFunc`: `word` has been read since the last
character that satisfies `f`. -/
def fieldsFrom (f : Char → Bool) (word : List Char) : List Char → List String
  | [] => if word = [] then [] else [String.ofList word]
  | r :: rest =>
      if f r then
        if word = [] then
          fieldsFrom f [] rest
        else
          String.ofList word :: fieldsFrom f [] rest
      else
        fieldsFrom f (word ++ [r]) rest

def fieldsFunc (s : String) (f : Char → Bool) : List String :=
  fieldsFrom f [] s.toList

/-- `wc.go`, with `isLetter` for the tables of `unicode.IsLetter`.  The library
functions for sorting and JSON are those of `lib`. -/
def wc (isLetter : Char → Bool) (lib : App) : App :=
  { lib with
    mapf := fun _ contents ↦
      (fieldsFunc contents fun r ↦ !isLetter r).map fun w ↦ ⟨w, "1"⟩
    reducef := fun _ values ↦ toString values.length }

/-- The words of the input files, which are the longest sequences of letters in
them. -/
def inputWords (isLetter : Char → Bool) (disk : Disk) (files : List String) :
    List String :=
  files.flatMap fun filename ↦
    ((((disk filename).getD "").toList.splitOnP fun r ↦ !isLetter r).filter
      fun word ↦ word ≠ []).map String.ofList

/-! ## What is counted -/

theorem fieldsFrom_eq (f : Char → Bool) (word l : List Char) :
    fieldsFrom f word l =
      ((l.splitOnPPrepend f word.reverse).filter
        fun word ↦ word ≠ []).map String.ofList := by
  induction l generalizing word with
  | nil =>
      by_cases hword : word = []
      · simp [fieldsFrom, hword]
      · simp [fieldsFrom, hword]
  | cons r rest ih =>
      rw [fieldsFrom, List.splitOnPPrepend_cons_eq_if, List.reverse_reverse]
      by_cases hf : f r = true
      · -- A separator ends the word, which is dropped when it is empty.
        rw [if_pos hf, if_pos hf, ih []]
        by_cases hword : word = []
        · simp [hword]
        · simp [hword]
      · rw [if_neg hf, if_neg hf, ih, List.reverse_append]
        rfl

section Count

variable {isLetter : Char → Bool} {lib : App} {disk : Disk}
variable {files : List String}

theorem App.flatMap_emitted (app : App) (disk : Disk) (files : List String) :
    (List.range files.length).flatMap (app.emitted disk files) =
      files.flatMap fun filename ↦
        ((disk filename).map (app.mapf filename)).getD [] := by
  induction files with
  | nil => rfl
  | cons filename rest ih =>
      have htail : ∀ m, app.emitted disk (filename :: rest) (m + 1) =
          app.emitted disk rest m := fun _ ↦ rfl
      rw [List.length_cons, List.range_succ_eq_map, List.flatMap_cons,
        List.flatMap_map, List.flatMap_cons, ← ih]
      simp only [Nat.succ_eq_add_one, htail]
      rfl

/-- The map tasks emit every word of the input. -/
theorem flatMap_emitted_wc :
    (List.range files.length).flatMap ((wc isLetter lib).emitted disk files) =
      (inputWords isLetter disk files).map fun w ↦ ⟨w, "1"⟩ := by
  rw [App.flatMap_emitted, inputWords, List.map_flatMap]
  refine List.flatMap_congr fun filename _ ↦ ?_
  cases disk filename with
  | none => rfl
  | some contents =>
      exact congrArg (List.map fun w ↦ KeyValue.mk w "1")
        (fieldsFrom_eq _ [] contents.toList)

theorem reducef_wc_perm : ∀ key values values', values.Perm values' →
    (wc isLetter lib).reducef key values =
      (wc isLetter lib).reducef key values' :=
  fun _ _ _ hperm ↦ congrArg toString hperm.length_eq

theorem reduceGroup_wc (key : String) (group : Multiset KeyValue) :
    (wc isLetter lib).reduceGroup key group = toString group.card := by
  rw [App.reduceGroup]
  refine congrArg toString ?_
  rw [Multiset.length_toList, Multiset.card_map]

/-- The group of a word has one pair for every occurrence of the word. -/
theorem card_filter_partition {n r : ℕ} {w : String} (hw : ihash w % n = r)
    (words : List String) :
    (Multiset.filter (fun kv ↦ kv.key = w)
      (partition n r (words.map fun w ↦ ⟨w, "1"⟩) : Multiset KeyValue)).card =
        words.count w := by
  rw [Multiset.filter_coe, Multiset.coe_card, partition, List.filter_filter,
    List.filter_map, List.length_map, ← List.countP_eq_length_filter,
    List.count]
  refine List.countP_congr fun w' _ ↦ ?_
  by_cases heq : w' = w
  · simp [heq, hw]
  · simp [heq]

/-- The lines for reduce task `r`. -/
theorem mem_reduceAll_share {n r : ℕ} {w k : String} :
    (w, k) ∈ (wc isLetter lib).reduceAll
        ((wc isLetter lib).share disk files n r) ↔
      ihash w % n = r ∧ w ∈ inputWords isLetter disk files ∧
        k = toString ((inputWords isLetter disk files).count w) := by
  have hkeys : (∃ kv ∈ partition n r
      ((inputWords isLetter disk files).map fun w ↦ ⟨w, "1"⟩), kv.key = w) ↔
        ihash w % n = r ∧ w ∈ inputWords isLetter disk files := by
    simp only [partition, List.mem_filter, List.mem_map, decide_eq_true_eq]
    constructor
    · rintro ⟨_, ⟨⟨w', hw', rfl⟩, hr⟩, rfl⟩
      exact ⟨hr, hw'⟩
    · rintro ⟨hr, hw⟩
      exact ⟨⟨w, "1"⟩, ⟨⟨w, hw, rfl⟩, hr⟩, rfl⟩
  rw [← Multiset.mem_coe, App.reduceAll_eq_records reducef_wc_perm,
    Grouping.mem_records, App.share, flatMap_emitted_wc, reduceGroup_wc,
    ← and_assoc]
  simp only [Multiset.mem_coe, hkeys]
  refine and_congr_right fun hw ↦ ?_
  rw [card_filter_partition hw.1]

end Count

/-! ## What the job writes -/

namespace Job

/-- The output of the word count lists the words of the input files: each word
once, in order, in the file for its hash, with the number of its
occurrences. -/
theorem wordCount_output {isLetter : Char → Bool} {lib : App} {disk : Disk}
    {files : List String} {n : ℕ} {visited : List Job} {σ : Job}
    (hapart : App.Apart files)
    (hrun : Run (step (wc isLetter lib))
      (fun σ a ↦ σ.SparesCompleted a ∧ σ.CommitsOnce a)
      (Job.init disk files n) visited σ)
    (hdone : σ.coordinator.done = true) {r : ℕ} (hr : r < n) :
    ∃ lines : List (String × String),
      σ.disk (outName r) = some (format lines) ∧
      lines.Pairwise (fun p q ↦ p.1 < q.1) ∧
      ∀ w k, (w, k) ∈ lines ↔
        ihash w % n = r ∧ w ∈ inputWords isLetter disk files ∧
          k = toString ((inputWords isLetter disk files).count w) :=
  ⟨_, hasOutput_of_done reducef_wc_perm hapart hrun hdone hr,
    App.pairwise_reduceAll _, fun _ _ ↦ mem_reduceAll_share⟩

theorem wordCount_output_late :
    ∃ σ : Job, σ.coordinator.done = true ∧
      ∃ lines : List (String × String),
        σ.disk (outName 0) = some (format lines) ∧ ("ab", "1") ∈ lines := by
  obtain ⟨visited, σ, hrun, hdone⟩ :=
    Run.exists_of_exec (step (wc Char.isAlpha letterCount))
      (fun σ a ↦ σ.SparesCompleted a ∧ σ.CommitsOnce a)
      (init letters ["a.txt", "b.txt"] (1 : ℕ)) lateWorker
      (fun σ ↦ σ.coordinator.done = true) (by decide +kernel)
  obtain ⟨lines, hfile, _, hlines⟩ :=
    wordCount_output (App.apart_of_head (by decide)) hrun hdone
      (r := 0) (by decide)
  exact ⟨σ, hdone, lines, hfile,
    (hlines _ _).mpr ⟨Nat.mod_one _, by decide +kernel, by decide +kernel⟩⟩

end Job

end DistLabs.Mr
