import WaiNative.Dataset.DeepHash

/-!
# `hashArchive/deep.js`: its runs come to an end

The walk reads the directories while the script makes new ones, and a file that is moved can
come up again below a directory that is read later. The names that can come up are those of
the old archive with their beginnings, and no directory gets deeper than it was or than the
new places are; so the loops have a weight that each step lowers.

- `Made`: which directories there are, and that the walk goes through directories only;
- `step_cost`: each step lowers what is left to do;
- `runs_end`: every run that nothing cuts comes to its end.
-/

namespace WaiNative.HashArchive.Deep

open Runs

/-- The directories are those of the old archive and those of its files, and the walk goes
through directories. -/
structure Made (old : Deep) (s : Deep) : Prop where
  made : ∀ d ∈ s.directories, d ∈ old.directories ∨ ∃ f ∈ old.files, d <+: deepHash f.name DEPTH
  opened : ∀ d, s.opening = some d → s.isDirectory d = true
  walked : ∀ frame ∈ s.frames, s.isDirectory frame.1 = true

section Ends

variable {old s t u : Deep} {act : Act}

/-- A call throws, or it leaves the walk as it is and makes at most its own directory. -/
theorem exec_cases (call : Call) : s.exec call = s.throws ∨ ∃ files directories,
    s.exec call = { s with files := files, directories := directories } ∧
      (directories = s.directories ∨
        ∃ path, call = .mkdir path ∧ directories = s.directories ++ [path]) := by
  cases call with
  | mkdir path =>
      rw [exec]
      split
      · exact Or.inr ⟨s.files, s.directories, rfl, Or.inl rfl⟩
      split
      · exact Or.inr ⟨s.files, _, rfl, Or.inr ⟨path, rfl, rfl⟩⟩
      · exact Or.inl rfl
  | mv path name =>
      rw [exec]
      -- the place of the file does not matter here
      generalize (if s.isDirectory (deepHash name DEPTH ++ [name]) = true then
        deepHash name DEPTH ++ [name] else deepHash name DEPTH) = dir
      split
      · split
        · exact Or.inr ⟨_, s.directories, rfl, Or.inl rfl⟩
        · exact Or.inl rfl
      · exact Or.inl rfl

/-- The directories that `onNewFile` makes are above the new place of a file. -/
theorem Placed.mkdir (h : Placed s) {path : List JsString} (hcall : .mkdir path ∈ s.calls) :
    ∃ f ∈ s.files, path <+: deepHash f.name DEPTH := by
  rcases h with hnil | ⟨f, hf, -, -, heq | ⟨heq, -⟩ | ⟨heq, -⟩⟩
  · rw [hnil] at hcall
    exact absurd hcall List.not_mem_nil
  · rw [heq] at hcall
    refine ⟨f, hf, ?_⟩
    rcases List.mem_cons.mp hcall with hone | hcall
    · rw [Call.mkdir.inj hone]
      exact ⟨[f.name.take 6], rfl⟩
    · rcases List.mem_pair.mp hcall with htwo | hmv
      · rw [Call.mkdir.inj htwo]
        exact List.prefix_rfl
      · cases hmv
  · rw [heq] at hcall
    refine ⟨f, hf, ?_⟩
    rcases List.mem_pair.mp hcall with htwo | hmv
    · rw [Call.mkdir.inj htwo]
      exact List.prefix_rfl
    · cases hmv
  · rw [heq] at hcall
    cases List.mem_singleton.mp hcall

/-- A run begins. -/
theorem Made.start
    (hmade : ∀ d ∈ s.directories, d ∈ old.directories ∨ ∃ f ∈ old.files,
      d <+: deepHash f.name DEPTH) : Made old s.start := by
  refine ⟨hmade, fun d hd => ?_, fun frame hin => absurd hin List.not_mem_nil⟩
  rw [← Option.some.inj hd]
  exact isDirectory_iff.mpr (Or.inl rfl)

/-- The walk behind a call goes through the same directories. -/
theorem Made.call (h : Made old s) {call : Call} {calls : List Call}
    (hmade : ∀ path, call = .mkdir path →
      path ∈ old.directories ∨ ∃ f ∈ old.files, path <+: deepHash f.name DEPTH) :
    Made old ({ s with calls := calls }.exec call) := by
  rcases exec_cases (s := { s with calls := calls }) call with
    heq | ⟨files, directories, heq, hdirs⟩
  · rw [heq]
    exact ⟨h.made, fun d hd => absurd hd.symm (Option.some_ne_none d),
      fun frame hin => absurd hin List.not_mem_nil⟩
  rw [heq]
  have hsub : s.directories ⊆ directories := by
    rcases hdirs with rfl | ⟨path, -, rfl⟩
    · exact List.Subset.refl _
    · exact List.subset_append_left _ _
  have hgrow : ∀ d, s.isDirectory d = true →
      ({ s with files := files, directories := directories, calls := calls } : Deep).isDirectory
        d = true :=
    fun d hd => isDirectory_iff.mpr ((isDirectory_iff.mp hd).imp id (fun hin => hsub hin))
  refine ⟨fun d hd => ?_, fun d hd => hgrow d (h.opened d hd),
    fun frame hin => hgrow frame.1 (h.walked frame hin)⟩
  rcases hdirs with rfl | ⟨path, hpath, rfl⟩
  · exact h.made d hd
  · rcases List.mem_append.mp hd with hin | hin
    · exact h.made d hin
    · rw [List.mem_singleton.mp hin]
      exact hmade path hpath

theorem step_made (hinv : Inv old.files s) (h : Made old s) (hstep : s.step act = some t) :
    Made old t := by
  have hwalked := h.walked
  cases step_cases hstep with
  | readdir hcalls hopening =>
      exact ⟨h.made, fun d hd => absurd hd.symm (Option.some_ne_none d),
        List.forall_mem_cons.mpr ⟨h.opened _ hopening, hwalked⟩⟩
  | call hcalls =>
      refine h.call (fun path hpath => Or.inr ?_)
      have hcall : Call.mkdir path ∈ s.calls := by
        rw [hcalls, hpath]
        exact List.mem_cons_self
      obtain ⟨f, hf, habove⟩ := hinv.placed.mkdir hcall
      obtain ⟨k, hk, hmoved⟩ := hinv.known f hf
      rw [hmoved.name] at habove
      exact ⟨k, hk, habove⟩
  | directory hcalls hopening hframes hdir =>
      rw [hframes] at hwalked
      refine ⟨h.made, fun d hd => ?_, List.forall_mem_cons.mpr (List.forall_mem_cons.mp hwalked)⟩
      rw [← Option.some.inj hd]
      exact hdir
  | file hcalls hopening hframes =>
      rw [hframes] at hwalked
      exact ⟨h.made, h.opened, List.forall_mem_cons.mpr (List.forall_mem_cons.mp hwalked)⟩
  | gone =>
      exact ⟨h.made, fun d hd => absurd hd.symm (Option.some_ne_none d),
        fun frame hin => absurd hin List.not_mem_nil⟩
  | back hcalls hopening hframes =>
      rw [hframes] at hwalked
      exact ⟨h.made, h.opened, (List.forall_mem_cons.mp hwalked).2⟩
  | die => exact Made.start h.made

/-! ## What is left to do -/

/-- The names that can come up. -/
def namesOf (old : Deep) : List JsString :=
  old.files.flatMap (fun f => f.name :: deepHash f.name DEPTH) ++ old.directories.flatten

def depthOf (old : Deep) : ℕ := DEPTH + old.directories.flatten.length

theorem Made.short (h : Made old s) {d : List JsString} (hd : s.isDirectory d = true) :
    d.length ≤ depthOf old := by
  rcases isDirectory_iff.mp hd with rfl | hin
  · exact Nat.zero_le _
  rcases h.made d hin with hold | ⟨f, -, habove⟩
  · exact (List.sublist_flatten_of_mem hold).length_le.trans (Nat.le_add_left _ _)
  · exact habove.length_le.trans (Nat.le_add_right _ _)

theorem Made.names (h : Made old s) (hinv : Inv old.files s) (dir : List JsString) :
    s.children dir ⊆ namesOf old := by
  intro x hx
  rcases List.mem_append.mp hx with hx | hx
  · obtain ⟨d, hd, hlast⟩ := List.mem_filterMap.mp hx
    have hin : x ∈ d := List.mem_of_getLast? (Option.ite_none_right_eq_some.mp hlast).2
    rcases h.made d hd with hold | ⟨f, hf, habove⟩
    · exact List.mem_append_right _ (List.mem_flatten.mpr ⟨d, hold, hin⟩)
    · exact List.mem_append_left _ (List.mem_flatMap.mpr
        ⟨f, hf, List.mem_cons_of_mem _ (habove.subset hin)⟩)
  · obtain ⟨f, hf, rfl⟩ := List.mem_map.mp hx
    obtain ⟨k, hk, hmoved⟩ := hinv.known f (List.mem_filter.mp hf).1
    rw [hmoved.name]
    exact List.mem_append_left _ (List.mem_flatMap.mpr ⟨k, hk, List.mem_cons_self⟩)

/-- A name costs more than all that is below it: `n` bounds the names of a directory. -/
def weight (n depth : ℕ) (dir : List JsString) : ℕ := (n + 5) ^ (depth + 1 - dir.length)

/-- How many steps the run can still take. -/
def cost (n depth : ℕ) (s : Deep) : ℕ :=
  s.calls.length + s.opening.elim 0 (fun dir => n * weight n depth dir + 2) +
    (s.frames.map (fun frame => frame.2.length * weight n depth frame.1 + 1)).sum

variable {n depth : ℕ}

theorem exec_cost (call : Call) : cost n depth (s.exec call) ≤ cost n depth s := by
  rcases exec_cases (s := s) call with heq | ⟨files, directories, heq, -⟩
  · rw [heq]
    exact Nat.zero_le _
  · rw [heq]
    exact le_rfl

/-- What is below a directory weighs less than its name. -/
theorem weight_below {dir : List JsString} {name : JsString}
    (hdepth : (dir ++ [name]).length ≤ depth) :
    n * weight n depth (dir ++ [name]) + 2 < weight n depth dir := by
  have hlength : depth + 1 - dir.length = depth + 1 - (dir ++ [name]).length + 1 := by
    rw [List.length_append, List.length_singleton] at hdepth ⊢
    omega
  have hpos : 0 < weight n depth (dir ++ [name]) := Nat.pow_pos (Nat.succ_pos _)
  have hstep : weight n depth dir = weight n depth (dir ++ [name]) * (n + 5) := by
    rw [weight, hlength, pow_succ, weight]
  rw [hstep, mul_add, mul_comm n]
  omega

theorem length_onNewFile (dir : List JsString) (name : JsString) :
    (onNewFile dir name).length ≤ 3 := by
  rw [onNewFile]
  split
  · exact Nat.zero_le _
  · exact le_rfl

theorem calls_weight {dir : List JsString} (hdepth : dir.length ≤ depth) (name : JsString) :
    (onNewFile dir name).length < weight n depth dir := by
  have hone : (n + 5) ^ 1 ≤ weight n depth dir := Nat.pow_le_pow_right (Nat.succ_pos _) (by omega)
  rw [pow_one] at hone
  have hcalls := length_onNewFile dir name
  omega

/-- **Each step of a run costs.** -/
theorem step_cost (hinv : Inv old.files s) (h : Made old s) (hact : act ≠ .die)
    (hstep : s.step act = some t) :
    cost (namesOf old).length (depthOf old) t < cost (namesOf old).length (depthOf old) s := by
  have hname : ∀ (dir names : List JsString) (name : JsString),
      (name :: names).length * weight (namesOf old).length (depthOf old) dir =
        names.length * weight (namesOf old).length (depthOf old) dir +
          weight (namesOf old).length (depthOf old) dir := fun _ _ _ => Nat.succ_mul _ _
  cases step_cases hstep with
  | @readdir dir names hcalls hopening honce hthere hall =>
      have hlength : names.length ≤ (namesOf old).length :=
        (List.subperm_of_subset honce (List.Subset.trans hthere (h.names hinv dir))).length_le
      have hmul := Nat.mul_le_mul_right (weight (namesOf old).length (depthOf old) dir) hlength
      simp only [cost, hcalls, hopening, List.map_cons, List.sum_cons, Option.elim]
      omega
  | call hcalls =>
      refine (exec_cost _).trans_lt ?_
      simp only [cost, hcalls, List.length_cons]
      omega
  | directory hcalls hopening hframes hdir =>
      have hbelow := weight_below (n := (namesOf old).length) (h.short hdir)
      simp only [cost, hcalls, hopening, hframes, List.map_cons, List.sum_cons, Option.elim, hname]
      omega
  | @file dir names name frames hcalls hopening hframes hdir hfile =>
      have hwalked := h.walked
      rw [hframes] at hwalked
      have hdepth : dir.length ≤ depthOf old := h.short (List.forall_mem_cons.mp hwalked).1
      have hnew := calls_weight (n := (namesOf old).length) hdepth name
      simp only [cost, hcalls, hopening, hframes, List.map_cons, List.sum_cons, Option.elim, hname,
        List.length_nil]
      omega
  | gone hframes =>
      simp only [cost, hframes, throws, List.map_cons, List.sum_cons, Option.elim,
        List.length_nil, List.map_nil, List.sum_nil]
      omega
  | back hcalls hopening hframes =>
      simp only [cost, hframes, List.map_cons, List.sum_cons]
      omega
  | die => exact absurd rfl hact

/-- A run that has not come to its end can go on. -/
theorem can_go_on (hsound : s.threw = false) (hended : ¬ s.Ended) :
    ∃ act t, act ≠ .die ∧ s.step act = some t := by
  have hnext : Act.next ≠ .die := Act.noConfusion
  cases hcalls : s.calls with
  | cons call calls => exact ⟨.next, _, hnext, by rw [step, hcalls]⟩
  | nil =>
      cases hopening : s.opening with
      | some dir =>
          have hread : Act.readdir (s.children dir).dedup ≠ .die := Act.noConfusion
          have hguard : (s.children dir).dedup.Nodup ∧ (s.children dir).dedup ⊆ s.children dir ∧
              s.children dir ⊆ (s.children dir).dedup :=
            ⟨List.nodup_dedup _, List.dedup_subset _, List.subset_dedup _⟩
          refine ⟨_, { s with
            opening := none, frames := (dir, (s.children dir).dedup) :: s.frames }, hread, ?_⟩
          rw [step, hcalls, hopening]
          exact if_pos hguard
      | none =>
          cases hframes : s.frames with
          | nil => exact absurd ⟨hcalls, hopening, hframes, hsound⟩ hended
          | cons frame frames =>
              obtain ⟨dir, _ | ⟨name, names⟩⟩ := frame
              · exact ⟨.next, _, hnext, by rw [step, hcalls, hopening, hframes]⟩
              · refine ⟨.next, ?_⟩
                rw [step, hcalls, hopening, hframes]
                dsimp only
                split
                · exact ⟨_, hnext, rfl⟩
                split
                · exact ⟨_, hnext, rfl⟩
                · exact ⟨_, hnext, rfl⟩

/-- What holds in every state of the runs on an archive. -/
structure Reached (old s : Deep) : Prop where
  inv : Inv old.files s
  made : Made old s
  cost : cost (namesOf old).length (depthOf old) s ≤
    cost (namesOf old).length (depthOf old) old.start

theorem step_reached (h : Reached old s) (hstep : s.step act = some t) : Reached old t := by
  refine ⟨step_inv h.inv hstep, step_made h.inv h.made hstep, ?_⟩
  by_cases hact : act = .die
  · -- each run begins with the same cost
    rw [hact] at hstep
    obtain rfl := Option.some.inj hstep
    exact le_rfl
  · exact (step_cost h.inv h.made hact hstep).le.trans h.cost

theorem reached_of_run {acts : List Act} (htree : Tree old.files old.directories)
    (hrun : Runs.run step old.start acts = some t) : Reached old t :=
  invariant_always (fun _ _ _ h hstep => step_reached h hstep)
    ⟨inv_start htree, Made.start (fun _ hd => Or.inl hd), le_rfl⟩ hrun

/-- **Every run comes to its end**: there is a bound on the steps of a run that nothing cuts,
whatever has been before it, and it stops nowhere but at its end; and it makes no directories
but those above the new places of the files. -/
theorem runs_end (htree : Tree s.files s.directories) :
    ∃ bound, ∀ acts t, Runs.run step s.start acts = some t →
      (∀ d ∈ t.directories, d ∈ s.directories ∨ ∃ f ∈ s.files, d <+: deepHash f.name DEPTH) ∧
        ∀ rest u, .die ∉ rest → Runs.run step t rest = some u →
          rest.length ≤ bound ∧ (u.Ended ∨ ∃ act v, act ≠ .die ∧ u.step act = some v) := by
  refine ⟨cost (namesOf s).length (depthOf s) s.start, fun acts t hrun => ?_⟩
  have hreached := reached_of_run htree hrun
  refine ⟨hreached.made.made, fun rest u hdie hrest => ⟨?_, ?_⟩⟩
  · have hlower : ∀ t act t', Reached s t → act ≠ .die → t.step act = some t' → Reached s t' ∧
        cost (namesOf s).length (depthOf s) t' < cost (namesOf s).length (depthOf s) t :=
      fun t act t' h hact hstep => ⟨step_reached h hstep, step_cost h.inv h.made hact hstep⟩
    have hok : Along step (fun _ act => act ≠ .die) t rest :=
      along_of_forall (fun act hin _ heq => hdie (heq ▸ hin))
    have hspent := length_add_measure hlower hreached hok hrest
    exact (Nat.le_add_right _ _).trans (hspent.trans hreached.cost)
  · have hend : Inv s.files u :=
      invariant_always (fun _ _ _ h hstep => step_inv h hstep) hreached.inv hrest
    by_cases hended : u.Ended
    · exact Or.inl hended
    · exact Or.inr (can_go_on hend.sound hended)

theorem runs_end_twoFiles : ∃ bound, ∀ rest u, .die ∉ rest →
    Runs.run step twoFiles.start rest = some u →
      rest.length ≤ bound ∧ (u.Ended ∨ ∃ act v, act ≠ .die ∧ u.step act = some v) := by
  obtain ⟨bound, hbound⟩ := runs_end tree_twoFiles
  exact ⟨bound, (hbound [] twoFiles.start run_nil).2⟩

end Ends

end WaiNative.HashArchive.Deep
