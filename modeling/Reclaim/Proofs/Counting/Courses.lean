import Reclaim.Proofs.Conservation
import Reclaim.Proofs.Counting.Barren
import Reclaim.Proofs.Counting.Steps

/-!
# Courses of programs on counting heaps

A course starts with a new heap and gives one command after the other. A command may be given
immediate values and references to any objects that are listed, whether a root reaches them or not.
What is true of counting heaps is true after every course: counts are exact, and objects go when
nothing counts them any more.

Results:
* `course_counts_exactly`: eager counting.
* `course_defers_counts`: deferred counting.
* `tethered_course_keeps_track`: no object is lost, unless an operand is copied or bound that only
  unreachable objects refer to.
-/

namespace Reclaim

/-! ## Courses -/

/-- The heap `u` after some commands on a new heap, each of them as `R` allows. The course is over
when the heap is poisoned. -/
inductive Course (R : Mutator → Command → Prop) (c : Config) : Mutator → Prop where
  | start {u : Mutator} : c.Makes u → Course R c u
  | step {u u' : Mutator} {cmd : Command} {vs : List Value} : Course R c u → R u cmd →
      (∀ v ∈ cmd.operands, v.Within u.Lists) →
      cmd.Gives u vs u' → u'.poisoned = false → Course R c u'

/-- Is the value immediate, or a reference to an object that is listed? -/
def Mutator.accepts (u : Mutator) (v : Value) : Bool :=
  match v.ref?, u.objects with
  | none, _ => true
  | some o, .ok listed => v = .ofRef o && listed.any fun b => b.1 = o
  | some _, .error _ => false

theorem Mutator.within_lists_of_accepts {u : Mutator} {v : Value} (h : u.accepts v = true) :
    v.Within u.Lists := by
  intro o ho
  unfold Mutator.accepts at h
  rw [ho] at h
  cases hl : u.objects with
  | error e =>
    rw [hl] at h
    cases h
  | ok listed =>
    rw [hl] at h
    simp only [Bool.and_eq_true, decide_eq_true_eq, List.any_eq_true] at h
    obtain ⟨hv, ⟨_, n⟩, hm, rfl⟩ := h
    exact ⟨hv, listed, n, hl, hm⟩

/-- One more command that is carried out. -/
theorem Course.next {R : Mutator → Command → Prop} {c : Config} {u : Mutator} (h : Course R c u)
    (cmd : Command) (hR : R u cmd)
    (hrun : (cmd.operands.all u.accepts && (cmd.values? u).isSome && !(cmd.after u).poisoned) =
      true) : Course R c (cmd.after u) := by
  simp only [Bool.and_eq_true, List.all_eq_true, Option.isSome_iff_exists,
    Bool.not_eq_true'] at hrun
  obtain ⟨⟨hops, vs, hvs⟩, hu⟩ := hrun
  exact h.step hR (fun v hv => Mutator.within_lists_of_accepts (hops v hv))
    (Command.gives_of_values hvs) hu

/-- All references that there are: those in fields of the listed objects, and those in roots. -/
def Mutator.references (u : Mutator) (listed : List (Nat × Nat)) : List Nat :=
  heapRefs u.machine.heap listed ++ u.rootObjects

/-- The blocks in which the listed objects lie. -/
def Mutator.blocks (u : Mutator) (listed : List (Nat × Nat)) : List (Nat × Nat) :=
  listed.map fun b => (b.1 - u.machine.own.headerWords, b.2)

namespace Counting

variable {mode : CountMode} {cap : Nat} {R : Mutator → Command → Prop} {c : Config} {u u' : Mutator}
  {m m' : Machine Counting} {ts ts' : List Tile}
  {cmd : Command} {vs : List Value} {o x : Nat}

/-- The mutator between commands, where counts are kept in this mode and the table has room for
`cap` objects. -/
structure Tallies (mode : CountMode) (cap : Nat) (u : Mutator) (m : Machine Counting)
    (ts : List Tile) : Prop where
  counts : u.Counts m
  mode : m.own.mode = mode
  capacity : m.own.zeroCounts.capacity = cap
  balanced : Balanced m ts
  parked : m.roots.parked = 0

namespace Tallies

theorem objects (ht : Tallies mode cap u m ts) : u.objects = .ok (blocksOf m ts) := by
  rw [Mutator.objects, Mutator.view, ht.counts.machine]
  exact ht.balanced.dying.stock.objects_run

theorem lists_iff (ht : Tallies mode cap u m ts) : u.Lists o ↔ Held (blocksOf m ts) o := by
  constructor
  · rintro ⟨listed, n, hrun, hm⟩
    rw [ht.objects] at hrun
    cases hrun
    exact ⟨n, hm⟩
  · rintro ⟨n, hm⟩
    exact ⟨_, n, ht.objects, hm⟩

/-- One command. -/
theorem step (ht : Tallies mode cap u m ts) (hops : ∀ v ∈ cmd.operands, v.Within u.Lists)
    (hg : cmd.Gives u vs u') (hclean : u'.poisoned = false) : ∃ m' ts', Tallies mode cap u' m' ts' ∧
    Stepped cmd vs m m' ts ts' := by
  have hend := steps ht.counts ht.balanced ht.parked cmd fun v hv =>
    (hops v hv).mono fun o ho => ht.lists_iff.mp ho
  have hsteps : Steps cmd m ts vs u' := by
    rcases hg with hrun | ⟨f, hrun, rfl⟩
    · exact hend.ok hrun
    · rcases (hend.error hrun).1 with hp | h
      · rw [hp] at hclean
        cases hclean
      · exact h f rfl
  obtain ⟨m', ts', hu', hs⟩ := hsteps
  exact ⟨m', ts', ⟨hu', hs.mode.trans ht.mode, hs.capacity.trans ht.capacity, hs.balanced,
    hs.parked.trans ht.parked⟩, hs⟩

end Tallies

/-- A new heap, one free tile. -/
theorem start_tallies (hc : c.strategy = mode.strategy) (h2 : 2 ≤ c.heapWords) (hu : c.Makes u) :
    ∃ m, Tallies mode c.zeroCountCapacity u m [⟨0, m.heap.size, true⟩] := by
  obtain ⟨m, hm, hmode, hcap, hg⟩ := start_balanced hc h2 hu
  obtain ⟨hash, rfl, -⟩ := hu.eq
  refine ⟨m, ⟨hm, rfl⟩, hmode, hcap, hg, ?_⟩
  have hroots := congrArg Machine.roots hm
  rw [Machine.withOwn_roots] at hroots
  rw [← hroots]
  rfl

/-- After every course, the state is as it is between operations. -/
theorem course_tallies (hc : c.strategy = mode.strategy) (h2 : 2 ≤ c.heapWords) (h : Course R c u) :
    ∃ m ts, Tallies mode c.zeroCountCapacity u m ts := by
  induction h with
  | start hu =>
    obtain ⟨m, ht⟩ := start_tallies hc h2 hu
    exact ⟨m, _, ht⟩
  | step _ _ hops hg hclean ih =>
    obtain ⟨m, ts, ht⟩ := ih
    obtain ⟨m', ts', ht', -⟩ := ht.step hops hg hclean
    exact ⟨m', ts', ht'⟩

/-- The mutator of a heap without room. -/
structure Idles (u : Mutator) (m : Machine Counting) : Prop where
  counts : u.Counts m
  barren : Barren m
  parked : m.roots.parked = 0

namespace Idles

theorem objects (hi : Idles u m) : u.objects = .ok [] := by
  rw [Mutator.objects, Mutator.view, hi.counts.machine]
  exact hi.barren.objects_run

theorem not_lists (hi : Idles u m) : ¬ u.Lists o := by
  rintro ⟨listed, n, hrun, hm⟩
  rw [hi.objects] at hrun
  cases hrun
  cases hm

/-- The roots hold immediate values. -/
theorem rootObjects (hi : Idles u m) : u.rootObjects = [] := by
  rw [Mutator.rootObjects, hi.counts.roots, List.reverse_eq_nil_iff, List.filterMap_eq_nil_iff]
  intro slot _
  cases hv : m.roots.get? slot with
  | none => rfl
  | some v => exact (hi.barren.roots slot v hv).ref_none

/-- What the laws say of the heap. -/
theorem noRoom (hi : Idles u m) : Collector.Hosted Collector.counting NoRoom u.machine Nothing := by
  rw [hi.counts.machine]
  exact ⟨m.own, rfl, hi.barren, rfl⟩

theorem of_noRoom {S : Nat → Prop} (hv : Collector.Hosted Collector.counting NoRoom u.machine S)
    (hclean : u.poisoned = false) (hpark : u.machine.roots.parked = 0) : ∃ m, Idles u m := by
  obtain ⟨s, hs, hb, -⟩ := hv
  refine ⟨u.machine.withOwn s, ⟨?_, hclean⟩, hb, hpark⟩
  rw [Machine.withOwn_own, ← hs]
  rfl

/-- One command. -/
theorem step (hi : Idles u m) (hops : ∀ v ∈ cmd.operands, v.Within u.Lists) (hg : cmd.Gives u vs u')
    (hclean : u'.poisoned = false) :
    ∃ m', Idles u' m' := by
  have hpark : u.machine.roots.parked = 0 := by rw [hi.counts.roots, hi.parked]
  obtain ⟨-, S', hadv, -⟩ :=
    hg.leaves (barren_laws.hosted hosts) hi.noRoom hi.counts.clean (.inr hpark)
    (fun v hv => (hops v hv).mono fun o ho => hi.not_lists ho) hclean
  exact of_noRoom hadv.inv hclean (hadv.parked.trans hpark)

/-- There is no room for a new object. -/
theorem creates_nothing (hi : Idles u m) (hops : ∀ v ∈ cmd.operands, v.Within u.Lists)
    (hcmd : cmd.Creates) (hg : cmd.Gives u vs u') :
    ∀ v ∈ vs, v.ref? = none := by
  have hl := barren_laws.hosted hosts
  have hv := hi.noRoom
  have hu := hi.counts.clean
  have hnone : ∀ v ∈ cmd.operands, v.Within Nothing :=
    fun v hv => (hops v hv).mono fun o ho => hi.not_lists ho
  have hvain : ∀ {u' : Mutator} {S' : Nat → Prop} {o : Nat},
      Collector.Hosted Collector.counting NoRoom u'.machine S' → ¬ S' o := by
    rintro u' S' o ⟨_, _, -, rfl⟩
    exact id
  have hend : Ends cmd.run u (fun vs _ => ∀ v ∈ vs, v.ref? = none) fun _ _ => True := by
    have hfilled : ∀ {y : MutatorM Value} {t : Tag} {aux : Word} {ws : List Word},
      MutatorM.Constructs y t aux ws →
        Ends (do return [← y]) u (fun vs _ => ∀ v ∈ vs, v.ref? = none) fun _ _ => True := by
      refine fun hy => ((hy.ends hl hv hu).mono_error fun _ _ _ => trivial).bind ?_
      rintro w u' ⟨-, ρ, S', k, o, -, -, hmade, -⟩
      exact (hvain hmade.moved.inv hmade.mem).elim
    cases cmd with
    | allocate bytes =>
      refine ((MutatorM.allocateWords_ends hl hv hu (by omega)).mono_error
        fun _ _ _ => trivial).bind ?_
      rintro o u' ⟨-, ρ, S', k, -, hmade, -⟩
      exact (hvain hmade.moved.inv hmade.mem).elim
    | char c => exact hfilled (MutatorM.char_constructs c)
    | string s => exact hfilled (MutatorM.text_constructs (.inl rfl) (Text.encode s))
    | symbol s => exact hfilled (MutatorM.text_constructs (.inr rfl) (Text.encode s))
    | lambda entry params variadic =>
      exact hfilled (MutatorM.lambda_constructs entry params variadic)
    | cons a b =>
      have ha := hnone a (by simp [Command.operands])
      have hb := hnone b (by simp [Command.operands])
      refine ((MutatorM.cons_ends hl hv hu ha hb).mono_error fun _ _ _ => trivial).bind ?_
      rintro w u' ⟨-, -, ρ, S', k, o, -, -, hmade, -⟩
      exact (hvain hmade.moved.inv hmade.mem).elim
    | duplicate v =>
      have hv : v.ref? = none := by
        cases hr : v.ref? with
        | none => rfl
        | some o => exact ((hnone v (by simp [Command.operands])) o hr).2.elim
      exact .step (MutatorM.duplicate_immediate hv) (.pure (by simpa using hv))
    | setCar pair v | setCdr pair v | push v | pop | writeRoot slot v | define name v | collect
    | collectFull | setStress on
    | peek depth | car v | cdr v | lookup name => exact hcmd.elim
  rcases hg with hrun | ⟨f, hrun, rfl⟩
  · exact hend.ok hrun
  · simp

end Idles

/-- After every course on a heap without room, there is nothing. -/
theorem course_idles (hc : c.strategy = mode.strategy) (h2 : c.heapWords < 2)
    (h : Course R c u) : ∃ m, Idles u m := by
  induction h with
  | start hu =>
    have hv := start_barren hc h2 hu
    obtain ⟨hash, rfl, -⟩ := hu.eq
    exact Idles.of_noRoom hv rfl rfl
  | step _ _ hops hg hclean ih =>
    obtain ⟨m, hi⟩ := ih
    exact hi.step hops hg hclean

/-! ## Eager counting -/

/-- The counts of an eager heap are those of the references that there are, and these refer to
listed objects. -/
structure CountsExact (u : Mutator) (listed : List (Nat × Nat)) : Prop where
  counts : ∀ b ∈ listed, count .eager b.1 u.machine.heap =
    .ok ((u.references listed).count b.1 : Nat)
  closed : ∀ o ∈ u.references listed, ∃ n, (o, n) ∈ listed

/-- The chunks of the free list and the blocks of the listed objects share out the arena. -/
def Parted (u : Mutator) (listed : List (Nat × Nat)) : Prop :=
  ∃ s cs, u.machine.own = .counting s ∧ s.freeList.chunks u.machine.heap = .ok cs ∧
    (cs ++ u.blocks listed).Pairwise Separate ∧
    ∀ a, a < u.machine.heap.size → Covered (cs ++ u.blocks listed) a

/-- A command on an eager heap reclaims nothing that is referred to afterwards, and leaves nothing
behind that is not: an object that is not counted was not counted before either, or was just
made. -/
structure Settles (cmd : Command) (u u' : Mutator) (listed listed' : List (Nat × Nat)) : Prop where
  kept : ∀ b ∈ listed, b.1 ∈ u'.references listed' → b ∈ listed'
  made : ∀ b ∈ listed', b ∈ listed ∨ (cmd.allocates = true ∧ ∀ n, (b.1, n) ∉ listed)
  uncounted : ∀ b ∈ listed', count .eager b.1 u'.machine.heap = .ok 0 →
    (b ∈ listed ∧ count .eager b.1 u.machine.heap = .ok 0) ∨
      (cmd.allocates = true ∧ ∀ n, (b.1, n) ∉ listed)

namespace Tallies

theorem references_perm (ht : Tallies .eager cap u m ts) :
    (refs m ts (rootRefs m.own.mode m.roots)).Perm (u.references (blocksOf m ts)) := by
  have hroots : (rootRefs m.own.mode m.roots).Perm u.rootObjects := by
    have hup : m.roots.unparked = m.roots.slotsUpward := by
      rw [Roots.unparked, ht.parked, Nat.sub_zero, Roots.slotsUpward]
    rw [ht.mode, rootRefs, hup, Mutator.rootObjects, ht.counts.roots]
    exact (List.reverse_perm _).symm
  rw [Mutator.references, ht.counts.heap]
  exact hroots.append_left _

theorem exact (ht : Tallies .eager cap u m ts) : CountsExact u (blocksOf m ts) := by
  have hperm := ht.references_perm
  refine ⟨fun b hb => ?_, fun o ho => ht.balanced.listed (hperm.mem_iff.mpr ho)⟩
  have hrun := ht.balanced.dying.count_run ⟨b.2, hb⟩
  rw [ht.mode] at hrun
  rw [ht.counts.heap, ← hperm.count_eq]
  simpa [ht.mode] using hrun

theorem parted (ht : Tallies mode cap u m ts) : Parted u (blocksOf m ts) := by
  have hbooks := ht.balanced.dying.stock
  have hown : u.machine.own = .counting m.own := by
    rw [ht.counts.machine]
    rfl
  have hblocks : u.blocks (blocksOf m ts) = usedRuns ts := by
    rw [Mutator.blocks, hown, blocksOf, objectsIn, List.map_map]
    refine (List.map_congr_left fun b _ => ?_).trans (List.map_id _)
    exact Prod.ext (Nat.add_sub_cancel _ _) rfl
  obtain ⟨h1, h2⟩ := hbooks.tiled.toTiles.share
  refine ⟨m.own, freeRuns ts, hown, ?_, by rw [hblocks]; exact h1, fun a ha => ?_⟩
  · rw [ht.counts.heap]
    exact hbooks.tiled.chunks_run
  · rw [hblocks]
    rw [ht.counts.heap] at ha
    exact h2 a (Nat.zero_le a) ha

/-- What is not counted is not referred to. -/
theorem uncounted_iff (ht : Tallies .eager cap u m ts) {b : Nat × Nat} (hb : b ∈ blocksOf m ts) :
    count .eager b.1 u.machine.heap = .ok 0 ↔ Lost m ts b.1 := by
  have heager : m.own.mode ≠ .deferred := by
    rw [ht.mode]
    decide
  rw [ht.exact.counts b hb, ← ht.references_perm.count_eq]
  constructor
  · intro h0
    refine ⟨⟨⟨b.2, hb⟩, List.count_eq_zero.mp ?_, by simp, fun h => absurd h heager⟩,
      fun h => absurd h heager⟩
    exact_mod_cast Except.ok.inj h0
  · intro hx
    rw [List.count_eq_zero.mpr hx.stray.uncounted]
    rfl

theorem settles (ht : Tallies .eager cap u m ts) (ht' : Tallies .eager cap u' m' ts')
    (hs : Stepped cmd vs m m' ts ts') :
    Settles cmd u u' (blocksOf m ts) (blocksOf m' ts') := by
  have hmade : ∀ b ∈ blocksOf m' ts', b ∈ blocksOf m ts ∨
      (cmd.allocates = true ∧ ∀ n, (b.1, n) ∉ blocksOf m ts) := fun b hb =>
    (hs.kept b hb).imp And.left fun h => ⟨h.1, fun n hn => h.2 ht.mode ⟨n, hn⟩⟩
  refine ⟨fun b hb href => ?_, hmade, fun b hb h0 => ?_⟩
  · obtain ⟨n, hn⟩ := ht'.exact.closed _ href
    rcases hmade _ hn with hold | ⟨-, hnew⟩
    · rwa [ht.balanced.dying.stock.housed.eq_of_fst hb hold rfl]
    · exact absurd hb (hnew b.2)
  · rcases hmade b hb with hold | hnew
    · refine .inl ⟨hold, (ht.uncounted_iff hold).mpr ?_⟩
      rcases hs.lost b.1 ((ht'.uncounted_iff hb).mp h0) with hx | ⟨-, -, hnew⟩ | ⟨v, -, hstr⟩
      · exact hx
      · exact absurd ⟨b.2, hold⟩ hnew
      · exact absurd (ht.mode.symm.trans hstr.mode) (by decide)
    · exact .inr hnew

end Tallies

theorem Idles.exact (hi : Idles u m) : CountsExact u [] := by
  refine ⟨by simp, fun o ho => ?_⟩
  rw [Mutator.references, hi.rootObjects] at ho
  simp [heapRefs] at ho

/-- After every course on an eager heap, the count of each object is the number of references to it
in fields and roots, all of which refer to listed objects, and each word of the arena lies in one
free chunk or one block. One more command keeps that; it reclaims no object that is still referred
to, and leaves none that is not, but for those that were there and those that it makes. -/
theorem course_counts_exactly (hc : c.strategy = .counting) (h : Course R c u) :
    ∃ listed, u.objects = .ok listed ∧ CountsExact u listed ∧ (2 ≤ c.heapWords → Parted u listed) ∧
      ∀ cmd vs u', (∀ v ∈ cmd.operands, v.Within u.Lists) → cmd.Gives u vs u' →
      u'.poisoned = false →
        ∃ listed', u'.objects = .ok listed' ∧ CountsExact u' listed' ∧
        (2 ≤ c.heapWords → Parted u' listed') ∧ Settles cmd u u' listed listed' := by
  have hmode : c.strategy = CountMode.eager.strategy := hc
  by_cases h2 : 2 ≤ c.heapWords
  · obtain ⟨m, ts, ht⟩ := course_tallies hmode h2 h
    refine ⟨_, ht.objects, ht.exact, fun _ => ht.parted, fun cmd vs u' hops hg hclean => ?_⟩
    obtain ⟨m', ts', ht', hs⟩ := ht.step hops hg hclean
    exact ⟨_, ht'.objects, ht'.exact, fun _ => ht'.parted, ht.settles ht' hs⟩
  · obtain ⟨m, hi⟩ := course_idles hmode (by omega) h
    refine ⟨[], hi.objects, hi.exact, fun h => absurd h h2, fun cmd vs u' hops hg hclean => ?_⟩
    obtain ⟨m', hi'⟩ := hi.step hops hg hclean
    exact ⟨[], hi'.objects, hi'.exact, fun h => absurd h h2, by simp, by simp, by simp⟩

/-- A small heap. -/
def sample : Config :=
  { strategy := .counting, heapSize := 256, stackCapacity := 4, globalTableSize := 1 }

/-- A pair that lies on the stack and is both fields of another one is counted three times. -/
theorem shared_counted : ∃ u, Course (fun _ _ => True) sample u ∧ CountsExact u [(2, 5), (7, 5)] ∧
    count .eager 2 u.machine.heap = .ok 3 := by
  let u0 := Mutator.ofConfig sample
  let u1 := (Command.cons .nil .nil).after u0
  let u2 := (Command.push (.ofRef 2)).after u1
  let u3 := (Command.cons (.ofRef 2) (.ofRef 2)).after u2
  have h0 : Course (fun _ _ => True) sample u0 := .start ⟨_, rfl⟩
  have h1 : Course _ sample u1 := h0.next _ trivial (by decide +kernel)
  have h2 : Course _ sample u2 := h1.next _ trivial (by decide +kernel)
  have h3 : Course _ sample u3 := h2.next _ trivial (by decide +kernel)
  obtain ⟨listed, hl, hexact, -⟩ := course_counts_exactly rfl h3
  have hlisted : u3.objects = .ok [(2, 5), (7, 5)] := eq_ok_of_toOption (by decide +kernel)
  obtain rfl : listed = [(2, 5), (7, 5)] := Except.ok.inj (hl.symm.trans hlisted)
  have hthree : (u3.references [(2, 5), (7, 5)]).count 2 = 3 := by decide +kernel
  refine ⟨u3, h3, hexact, ?_⟩
  rw [hexact.counts (2, 5) (by simp), hthree]
  rfl

/-! ## Deferred counting -/

/-- The counts of a deferred heap are those of the references in fields, and `table` holds listed
objects, each once, which are marked as such. -/
structure Defers (u : Mutator) (listed : List (Nat × Nat)) (table : List Nat)
    (capacity : Nat) : Prop where
  counts : ∀ b ∈ listed, count .deferred b.1 u.machine.heap =
    .ok ((heapRefs u.machine.heap listed).count b.1 : Nat)
  nodup : table.Nodup
  room : table.length ≤ capacity
  known : ∀ o ∈ table, ∃ n, (o, n) ∈ listed
  marked : ∀ b ∈ listed, isQueued .deferred b.1 u.machine.heap = .ok (decide (b.1 ∈ table))

/-- A command on a deferred heap that returns the values `vs` reclaims nothing that the roots reach
afterwards. -/
structure Spares (cmd : Command) (vs : List Value) (u u' : Mutator)
    (listed listed' : List (Nat × Nat)) : Prop where
  /-- What the roots reach lies in the block in which it was, with the words that it had but for
  what the command stores. If it was just made to bind a name, it lies where nothing was that the
  roots or the operands reached. -/
  reached : ∀ x, u'.machine.Reachable x → ∃ n, (x, n) ∈ listed' ∧
    (((x, n) ∈ listed ∧ cmd.Preserves u.machine u'.machine x) ∨
      (cmd.BindsWith u'.machine x ∧ ¬ u.machine.Live cmd.operands x))
  /-- A new object that is returned lies where nothing was that the roots or the operands reached;
  an object that was listed there was garbage, and has been reclaimed. -/
  fresh : cmd.Creates → ∀ v ∈ vs, ∀ o, v.ref? = some o →
    Held listed' o ∧ ¬ u'.machine.Reachable o ∧ ¬ u.machine.Live cmd.operands o

namespace Tallies

theorem defers (ht : Tallies .deferred cap u m ts) :
    Defers u (blocksOf m ts) m.own.zeroCounts.entries.toList cap := by
  have hd := ht.balanced.dying
  have hq := hd.stock.queued ht.mode
  refine ⟨fun b hb => ?_, hq.nodup, ?_, hq.listed, fun b hb => ?_⟩
  · have hrun := hd.count_run ⟨b.2, hb⟩
    rw [ht.mode] at hrun
    rw [ht.counts.heap, hrun]
    simp [rootRefs]
  · rw [← ht.capacity]
    exact hq.room
  · have hrun := hd.stock.isQueued_run ht.mode ⟨b.2, hb⟩ (by simp)
    rw [ht.mode] at hrun
    rw [ht.counts.heap, hrun]

/-- The heap of the mutator is the counting heap. -/
theorem reachable_iff (ht : Tallies mode cap u m ts) : u.machine.Reachable x ↔ m.Reachable x := by
  rw [ht.counts.machine]
  rfl

/-- What the roots and values reach. -/
theorem live_iff (ht : Tallies mode cap u m ts) : u.machine.Live vs x ↔ m.Live vs x := by
  rw [ht.counts.machine]
  rfl

theorem preserves_iff (ht : Tallies mode cap u m ts) (ht' : Tallies mode cap u' m' ts') :
    cmd.Preserves u.machine u'.machine x ↔ cmd.Preserves m m' x := by
  rw [ht.counts.machine, ht'.counts.machine]
  rfl

theorem bound (ht : Tallies mode cap u m ts) (h : cmd.BindsWith m x) :
    cmd.BindsWith u.machine x := by
  obtain ⟨name, v, link, entry, key, hcmd, hb, hdistinct, hm⟩ := h
  rw [ht.counts.machine]
  exact ⟨name, v, link, entry, key, hcmd, ⟨hb.bucket, hb.link, hb.entry⟩, hdistinct, hm⟩

theorem spares (ht : Tallies mode cap u m ts) (ht' : Tallies mode cap u' m' ts')
    (hs : Stepped cmd vs m m' ts ts') :
    Spares cmd vs u u' (blocksOf m ts) (blocksOf m' ts') := by
  refine ⟨fun x hx => ?_, fun hcmd v hv o ho => ?_⟩
  · have hreach := ht'.reachable_iff.mp hx
    have hbooks := ht'.balanced.dying.stock
    obtain ⟨n, hn⟩ := hreach.mem hbooks.housed.closed hbooks.roots
    refine ⟨n, hn, ?_⟩
    rw [ht.preserves_iff ht', ht.live_iff]
    exact (hs.rooted _ hn hreach).imp_right fun h => ⟨ht'.bound h.1, h.2⟩
  · rw [ht'.reachable_iff, ht.live_iff]
    exact hs.fresh hcmd v hv o ho

end Tallies

/-- After every course on a deferred heap, the count of each object is the number of references to
it in fields, and the zero count table holds listed objects alone, each once and no more than it has
room for, which are those marked as being in it. One more command reclaims nothing that the roots
reach when it ends, and changes nothing of it but the field that it stores. -/
theorem course_defers_counts (hc : c.strategy = .deferredCounting) (h : Course R c u) :
    ∃ listed s, u.objects = .ok listed ∧ u.machine.own = .counting s ∧
    Defers u listed s.zeroCounts.entries.toList c.zeroCountCapacity ∧
      ∀ cmd vs u', (∀ v ∈ cmd.operands, v.Within u.Lists) → cmd.Gives u vs u' →
      u'.poisoned = false →
        ∃ listed', u'.objects = .ok listed' ∧ Spares cmd vs u u' listed listed' := by
  have hmode : c.strategy = CountMode.deferred.strategy := hc
  by_cases h2 : 2 ≤ c.heapWords
  · obtain ⟨m, ts, ht⟩ := course_tallies hmode h2 h
    refine ⟨_, m.own, ht.objects, by rw [ht.counts.machine]; rfl, ht.defers,
      fun cmd vs u' hops hg hclean => ?_⟩
    obtain ⟨m', ts', ht', hs⟩ := ht.step hops hg hclean
    exact ⟨_, ht'.objects, ht.spares ht' hs⟩
  · obtain ⟨m, hi⟩ := course_idles hmode (by omega) h
    have htable := hi.barren.unqueued
    refine ⟨[], m.own, hi.objects, by rw [hi.counts.machine]; rfl,
      ⟨by simp, by simp [htable], by simp [htable], by simp [htable], by simp⟩,
      fun cmd vs u' hops hg hclean => ?_⟩
    obtain ⟨m', hi'⟩ := hi.step hops hg hclean
    refine ⟨[], hi'.objects, fun x hx => ?_, fun hcmd v hv o ho => ?_⟩
    · rw [hi'.counts.machine] at hx
      exact (hx.mem (Barren.closed m') hi'.barren.roots).elim
    · exact absurd ho (by rw [hi.creates_nothing hops hcmd hg v hv]; simp)

/-- A small heap whose counting is deferred. -/
def deferredSample : Config := { sample with strategy := .deferredCounting, zeroCountCapacity := 4 }

/-- A pair that a pair on the stack refers to is counted once, and neither is in the table after a
collection. -/
theorem nested_deferred : ∃ u, Course (fun _ _ => True) deferredSample u ∧
    Defers u [(3, 6), (9, 6)] [] 4 ∧
    count .deferred 3 u.machine.heap = .ok 1 ∧ count .deferred 9 u.machine.heap = .ok 0 := by
  let u0 := Mutator.ofConfig deferredSample
  let u1 := (Command.cons .nil .nil).after u0
  let u2 := (Command.cons (.ofRef 3) .nil).after u1
  let u3 := (Command.push (.ofRef 9)).after u2
  let u4 := Command.collect.after u3
  have h0 : Course (fun _ _ => True) deferredSample u0 := .start ⟨_, rfl⟩
  have h1 : Course _ deferredSample u1 := h0.next _ trivial (by decide +kernel)
  have h2 : Course _ deferredSample u2 := h1.next _ trivial (by decide +kernel)
  have h3 : Course _ deferredSample u3 := h2.next _ trivial (by decide +kernel)
  have h4 : Course _ deferredSample u4 := h3.next _ trivial (by decide +kernel)
  obtain ⟨listed, s, hl, hown, hdef, -⟩ := course_defers_counts rfl h4
  have hlisted : u4.objects = .ok [(3, 6), (9, 6)] := eq_ok_of_toOption (by decide +kernel)
  obtain rfl : listed = [(3, 6), (9, 6)] := Except.ok.inj (hl.symm.trans hlisted)
  have htable : u4.tabled = [] := by decide +kernel
  rw [Mutator.tabled, hown] at htable
  dsimp only at htable
  rw [htable] at hdef
  have hone : (heapRefs u4.machine.heap [(3, 6), (9, 6)]).count 3 = 1 := by decide +kernel
  have hnone : (heapRefs u4.machine.heap [(3, 6), (9, 6)]).count 9 = 0 := by decide +kernel
  refine ⟨u4, h4, hdef, ?_, ?_⟩
  · rw [hdef.counts (3, 6) (by simp), hone]
    rfl
  · rw [hdef.counts (9, 6) (by simp), hnone]
    rfl

/-! ## Objects that are lost -/

/-- What a command parks and takes back is reached by the roots, or no field refers to it. -/
def Tethered (u : Mutator) (cmd : Command) : Prop :=
  ∀ v ∈ cmd.lingering, ∀ o, v.ref? = some o → u.machine.Reachable o ∨ ∀ listed, u.objects =
    .ok listed → o ∉ heapRefs u.machine.heap listed

theorem tethered_tallies (hc : c.strategy = .deferredCounting) (h2 : 2 ≤ c.heapWords)
    (h : Course Tethered c u) :
    ∃ m ts, Tallies .deferred c.zeroCountCapacity u m ts ∧ ∀ x, ¬ Lost m ts x := by
  have hmode : c.strategy = CountMode.deferred.strategy := hc
  induction h with
  | start hu =>
    obtain ⟨m, ht⟩ := start_tallies hmode h2 hu
    exact ⟨m, _, ht, fun x hx => not_held_nil hx.stray.held⟩
  | step _ hteth hops hg hclean ih =>
    obtain ⟨m, ts, ht, hlost⟩ := ih
    obtain ⟨m', ts', ht', hs⟩ := ht.step hops hg hclean
    refine ⟨m', ts', ht', fun x hx => ?_⟩
    rcases hs.lost x hx with hx | ⟨heager, -⟩ | ⟨v, hv, hstr⟩
    · exact hlost x hx
    · exact absurd (ht.mode.symm.trans heager) (by decide)
    · rcases hteth v hv x hstr.ref with hr | hno
      · exact hstr.unreachable (ht.reachable_iff.mp hr)
      · refine hno _ ht.objects ?_
        rw [ht.counts.heap]
        exact hstr.counted

/-- After every course on a deferred heap in which what is copied or bound is reached by the roots
or not referred to by any field, an object with the count zero waits in the table or is held by a
root. -/
theorem tethered_course_keeps_track (hc : c.strategy = .deferredCounting) (h : Course Tethered c u)
    (ho : u.Lists o) (h0 : count .deferred o u.machine.heap = .ok 0) :
    u.machine.roots.Refers o ∨ ∃ s, u.machine.own = .counting s ∧
    o ∈ s.zeroCounts.entries.toList := by
  have hmode : c.strategy = CountMode.deferred.strategy := hc
  by_cases h2 : 2 ≤ c.heapWords
  · obtain ⟨m, ts, ht, hlost⟩ := tethered_tallies hc h2 h
    obtain ⟨n, hn⟩ := ht.lists_iff.mp ho
    by_contra hno
    obtain ⟨hroot, htable⟩ := not_or.mp hno
    refine hlost o ⟨⟨⟨n, hn⟩, ?_, by simp,
      fun _ hm => htable ⟨m.own, by rw [ht.counts.machine]; rfl, hm⟩⟩, fun _ hr => hroot ?_⟩
    · rw [ht.defers.counts _ hn, ht.counts.heap] at h0
      have hz : (heapRefs m.heap (blocksOf m ts)).count o = 0 := by exact_mod_cast Except.ok.inj h0
      rw [ht.mode]
      simpa [rootRefs] using List.count_eq_zero.mp hz
    · rw [ht.counts.roots]
      exact hr
  · obtain ⟨m, hi⟩ := course_idles hmode (by omega) h
    exact absurd ho hi.not_lists

/-- A copy of a pair on the stack waits in the table. -/
theorem copy_tracked : ∃ u, Course Tethered deferredSample u ∧ u.Lists 9 ∧
    count .deferred 9 u.machine.heap = .ok 0 ∧
    (u.machine.roots.Refers 9 ∨ ∃ s, u.machine.own = .counting s ∧
      9 ∈ s.zeroCounts.entries.toList) := by
  let u0 := Mutator.ofConfig deferredSample
  let u1 := (Command.cons .nil .nil).after u0
  let u2 := (Command.push (.ofRef 3)).after u1
  let u3 := (Command.duplicate (.ofRef 3)).after u2
  have hroot : u2.machine.Reachable 3 := by
    have hslot : u2.machine.roots.get? (.stack 0) = some (.ofRef 3) := by decide +kernel
    exact .root ⟨_, _, hslot, Value.ref?_ofRef (by decide) (by decide)⟩
  have h0 : Course Tethered deferredSample u0 := .start ⟨_, rfl⟩
  have h1 : Course _ deferredSample u1 :=
    h0.next _ (by simp [Tethered, Command.lingering]) (by decide +kernel)
  have h2 : Course _ deferredSample u2 :=
    h1.next _ (by simp [Tethered, Command.lingering]) (by decide +kernel)
  have h3 : Course Tethered deferredSample u3 := by
    refine h2.next _ ?_ (by decide +kernel)
    intro v hv o ho
    obtain rfl := List.mem_singleton.mp hv
    rw [Value.ref?_ofRef (by decide) (by decide)] at ho
    cases ho
    exact .inl hroot
  have hlist : u3.accepts (.ofRef 9) = true := by decide +kernel
  have ho := (Mutator.within_lists_of_accepts hlist 9 (Value.ref?_ofRef (by decide) (by decide))).2
  have hzero : count .deferred 9 u3.machine.heap = .ok 0 := eq_ok_of_toOption (by decide +kernel)
  exact ⟨u3, h3, ho, hzero, tethered_course_keeps_track rfl h3 ho hzero⟩

/-- A pair that only a garbage pair refers to is copied while every allocation scans: the garbage
goes, and the pair is lost. -/
theorem stranded_pair_lost : ∃ u s, Course (fun _ _ => True) deferredSample u ∧
    u.machine.own = .counting s ∧ u.Lists 3 ∧
    count .deferred 3 u.machine.heap = .ok 0 ∧ 3 ∉ s.zeroCounts.entries.toList ∧
    3 ∉ u.rootObjects := by
  let u0 := Mutator.ofConfig deferredSample
  let u1 := (Command.cons .nil .nil).after u0
  let u2 := (Command.cons (.ofRef 3) .nil).after u1
  let u3 := (Command.push (.ofRef 9)).after u2
  let u4 := Command.collect.after u3
  let u5 := Command.pop.after u4
  let u6 := (Command.setStress true).after u5
  let u7 := (Command.duplicate (.ofRef 3)).after u6
  have h0 : Course (fun _ _ => True) deferredSample u0 := .start ⟨_, rfl⟩
  have h1 : Course _ deferredSample u1 := h0.next _ trivial (by decide +kernel)
  have h2 : Course _ deferredSample u2 := h1.next _ trivial (by decide +kernel)
  have h3 : Course _ deferredSample u3 := h2.next _ trivial (by decide +kernel)
  have h4 : Course _ deferredSample u4 := h3.next _ trivial (by decide +kernel)
  have h5 : Course _ deferredSample u5 := h4.next _ trivial (by decide +kernel)
  have h6 : Course _ deferredSample u6 := h5.next _ trivial (by decide +kernel)
  have h7 : Course _ deferredSample u7 := h6.next _ trivial (by decide +kernel)
  have hlist : u7.accepts (.ofRef 3) = true := by decide +kernel
  have ho := (Mutator.within_lists_of_accepts hlist 3 (Value.ref?_ofRef (by decide) (by decide))).2
  obtain ⟨m, ts, ht⟩ := course_tallies
    (show deferredSample.strategy = CountMode.deferred.strategy from rfl) (by decide) h7
  have hown : u7.machine.own = .counting m.own := by
    rw [ht.counts.machine]
    rfl
  have htable : u7.tabled = [9] := by decide +kernel
  rw [Mutator.tabled, hown] at htable
  dsimp only at htable
  refine ⟨u7, m.own, h7, hown, ho, eq_ok_of_toOption (by decide +kernel), ?_, by decide +kernel⟩
  rw [htable]
  decide

end Counting

end Reclaim
