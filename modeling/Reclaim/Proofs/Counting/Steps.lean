import Reclaim.Proofs.Counting.Commands

/-!
# Steps of a program on a counting heap

One command, whatever it is, and what it does to the counting heap (`Stepped`): the counts stay
right, objects are either left in their blocks or reclaimed, or are new, and no object is lost but
for operands that were parked and taken back. What the roots reach afterwards was left in its block
with the words that it had, but for the one that the command stores, unless it makes up the new
binding of a name. An object that the command returns takes the place of none that was live.

Results:
* `Brings.stepped`, `BindingMade.stepped`, `Thinned.stepped`: the three kinds of commands that
  change the heap.
* `steps`: every command.
-/

namespace Reclaim

namespace Command

/-- Does the command make objects? -/
def allocates : Command → Bool
  | allocate _ | char _ | string _ | symbol _ | cons _ _ | lambda _ _ _ | duplicate _
  | define _ _ => true
  | _ => false

/-- The operands that are parked while an object is made, and that this object may not refer to
afterwards. -/
def lingering : Command → List Value
  | duplicate v | define _ v => [v]
  | _ => []

/-- The command has bound a name, and `x` is one of the three objects that it made for this. -/
def BindsWith {σ : Type} (cmd : Command) (m : Machine σ) (x : Nat) : Prop :=
  ∃ name v link entry key, cmd = .define name v ∧
    Binding m (m.roots.bucket (Text.encode name)) link entry key ∧
    [key, entry, link].Nodup ∧ x ∈ [key, entry, link]

/-- The command stores `w` at `a`: into a field of a pair, or of the entry by which a name is
bound. -/
def Stores {σ : Type} (cmd : Command) (m : Machine σ) (a : Nat) (w : Value) : Prop :=
  match cmd with
  | setCar pair v => ∃ o, pair.ref? = some o ∧ a = o + carField ∧ w = v
  | setCdr pair v => ∃ o, pair.ref? = some o ∧ a = o + cdrField ∧ w = v
  | define name v =>
    ∃ head entry o, m.roots.get? (.global (m.roots.bucket (Text.encode name))) = some head ∧
      entryFrom? name (m.heap.size + 1) head m.heap = .ok (some entry) ∧ entry.ref? = some o ∧
        a = o + cdrField ∧ w = v
  | _ => False

/-- The object `x` has the words that it had, but for what the command stores. -/
def Preserves {σ : Type} (cmd : Command) (m m' : Machine σ) (x : Nat) : Prop :=
  ∀ i, i < m.heap.payload x → m'.heap.word (x + i) = m.heap.word (x + i) ∨
    ∃ w, cmd.Stores m (x + i) w ∧ m'.heap.value (x + i) = w

end Command

namespace Counting

variable {m m' : Machine Counting} {ts ts' : List Tile} {vs : List Value} {o n x : Nat} {v : Value}
  {u u' : Mutator} {cmd : Command}

/-- The object that `v` refers to is kept only by fields of objects that no root reaches. If these
are reclaimed while it is parked, it has left the table for good. -/
structure Strands (m : Machine Counting) (ts : List Tile) (v : Value) (x : Nat) : Prop where
  mode : m.own.mode = .deferred
  ref : v.ref? = some x
  counted : x ∈ heapRefs m.heap (blocksOf m ts)
  unreachable : ¬ m.Reachable x

/-- What one command does that returns the values `vs`. -/
structure Stepped (cmd : Command) (vs : List Value) (m m' : Machine Counting)
    (ts ts' : List Tile) : Prop where
  mode : m'.own.mode = m.own.mode
  capacity : m'.own.zeroCounts.capacity = m.own.zeroCounts.capacity
  balanced : Balanced m' ts'
  parked : m'.roots.parked = m.roots.parked
  kept : ∀ b ∈ blocksOf m' ts', (b ∈ blocksOf m ts ∧ m'.heap.word b.1 = m.heap.word b.1) ∨
    (cmd.allocates = true ∧ (m.own.mode = .eager → ¬ Held (blocksOf m ts) b.1))
  rooted : ∀ b ∈ blocksOf m' ts', m'.Reachable b.1 →
    (b ∈ blocksOf m ts ∧ cmd.Preserves m m' b.1) ∨
      (cmd.BindsWith m' b.1 ∧ ¬ m.Live cmd.operands b.1)
  fresh : cmd.Creates → ∀ v ∈ vs, ∀ o, v.ref? = some o →
    Held (blocksOf m' ts') o ∧ ¬ m'.Reachable o ∧ ¬ m.Live cmd.operands o
  lost : ∀ x, Lost m' ts' x → Lost m ts x ∨
    (m.own.mode = .eager ∧ cmd.allocates = true ∧ ¬ Held (blocksOf m ts) x) ∨
    ∃ v ∈ cmd.lingering, Strands m ts v x

/-! ## Commands that make nothing -/

/-- Objects are left in their blocks, or reclaimed. -/
theorem Stepped.of_subset (hvs : cmd.Creates → ∀ v ∈ vs, v.ref? = none)
    (hmode : m'.own.mode = m.own.mode)
    (hcap : m'.own.zeroCounts.capacity = m.own.zeroCounts.capacity) (hg : Balanced m' ts')
    (hpark : m'.roots.parked = m.roots.parked) (hsub : ∀ b ∈ blocksOf m' ts', b ∈ blocksOf m ts)
    (hword : ∀ x, Held (blocksOf m' ts') x → m'.heap.word x = m.heap.word x)
    (hkeep : ∀ x, Held (blocksOf m' ts') x → cmd.Preserves m m' x)
    (hlost : ∀ x, Lost m' ts' x → Lost m ts x) :
    Stepped cmd vs m m' ts ts' :=
  ⟨hmode, hcap, hg, hpark, fun b hb => .inl ⟨hsub b hb, hword b.1 ⟨b.2, hb⟩⟩,
    fun b hb _ => .inl ⟨hsub b hb, hkeep b.1 ⟨b.2, hb⟩⟩,
    fun hcmd v hv o ho => absurd ho (by rw [hvs hcmd v hv]; simp), fun x hx => .inl (hlost x hx)⟩

/-- And nothing is stored. -/
theorem Stepped.of_same (hvs : cmd.Creates → ∀ v ∈ vs, v.ref? = none)
    (hmode : m'.own.mode = m.own.mode)
    (hcap : m'.own.zeroCounts.capacity = m.own.zeroCounts.capacity) (hg : Balanced m ts)
    (hg' : Balanced m' ts') (hpark : m'.roots.parked = m.roots.parked)
    (hsub : ∀ b ∈ blocksOf m' ts', b ∈ blocksOf m ts)
    (hsame : Same (Held (blocksOf m' ts')) m.heap m'.heap)
    (hlost : ∀ x, Lost m' ts' x → Lost m ts x) :
    Stepped cmd vs m m' ts ts' := by
  have hk := hg.dying.stock.housed.closed.known
  refine .of_subset hvs hmode hcap hg' hpark hsub (fun x hx => ?_)
    (fun x hx i hi => .inl (hsame x i hx hi)) hlost
  obtain ⟨n, hn⟩ := id hx
  exact hsame.head (hk x ⟨n, hsub _ hn⟩) hx

theorem Stepped.refl (hvs : cmd.Creates → ∀ v ∈ vs, v.ref? = none) (hg : Balanced m ts) :
    Stepped cmd vs m m ts ts :=
  .of_same hvs rfl rfl hg hg rfl (fun _ hb => hb) (.refl _ _) fun _ hx => hx

theorem Thinned.stepped (hvs : cmd.Creates → ∀ v ∈ vs, v.ref? = none) (hg : Balanced m ts)
    (hs : Thinned m m' ts ts') (hpark : m'.roots.parked = m.roots.parked)
    (hsame : Same (Held (blocksOf m' ts')) m.heap m'.heap) :
    Stepped cmd vs m m' ts ts' :=
  .of_same hvs hs.mode hs.capacity hg hs.balanced hpark
    (fun _ hb => hs.sublist.subset hb) hsame hs.lost

theorem AfterScans.stepped {k : Nat} (hs : AfterScans m ts m' ts' k) (hg : Balanced m ts) :
    Stepped cmd [] m m' ts ts' :=
  .of_same (by simp) hs.fewer.mode hs.fewer.capacity hg hs.balanced (by rw [hs.fewer.roots])
    (fun _ hb => hs.fewer.sublist.subset hb) hs.fewer.same hs.lost

/-! ## Commands that make an object -/

namespace Brings

/-- The roots reach the same objects as before. -/
theorem reachable_iff (hb : Brings vs o n m m' ts ts') (hcl : Closed m.heap (m.Live vs)) :
    m'.Reachable x ↔ m.Reachable x := by
  rw [Machine.Reachable, Machine.Reachable, hb.roots]
  exact (hb.same.mono fun _ hx => Machine.Reachable.live hx).reach_iff fun x hx =>
    hcl.known x (Machine.Reachable.live hx)

/-- An operand that was parked is lost only if it was stranded. -/
theorem lost_cases (hb : Brings [v] o n m m' ts ts') (hg : Balanced m ts)
    (hv : v.Within (Held (blocksOf m ts))) (hx : Lost m' ts' x) :
    Lost m ts x ∨ (m.own.mode = .eager ∧ x = o) ∨ Strands m ts v x := by
  rcases hb.lost x hx with h | ⟨hmode, h⟩ | ⟨hmode, w, hw, hwx⟩
  · exact .inl h
  · exact .inr (.inl ⟨hmode, by simpa using h⟩)
  · obtain rfl := List.mem_singleton.mp hw
    obtain ⟨rfl, hheld⟩ := hv x hwx
    have hunheld : ¬ m.roots.Refers x := by
      rw [← hb.roots]
      exact hx.unheld (hb.mode.trans hmode)
    by_cases hcount : x ∈ heapRefs m.heap (blocksOf m ts)
    · refine .inr (.inr ⟨hmode, hwx, hcount, fun hreach => ?_⟩)
      -- it would be referred to by an object that is still there
      have hcl : Closed m.heap (m.Live [.ofRef x]) := hg.closed_live (by simpa using hv)
      have hreach' := (hb.reachable_iff hcl).mpr hreach
      cases hreach' with
      | root hr => exact hx.unheld (hb.mode.trans hmode) hr
      | step hy hc =>
        have hbooks := hb.balanced.dying.stock
        obtain ⟨j, hy⟩ := hy.mem_of_closed hbooks.housed.closed fun _ h => hbooks.roots.refers h
        exact hx.stray.uncounted (List.mem_append_left _ (mem_heapRefs.mpr ⟨_, hy, hc⟩))
    · refine .inl ⟨⟨hheld, ?_, by simp, fun _ hq => ?_⟩, fun _ => hunheld⟩
      · rw [hmode]
        simpa [rootRefs] using hcount
      · exact hx.stray.unqueued (hb.mode.trans hmode) (hb.waiting x hq (.inr (by simp)) hcount)

/-- The new object is returned, or was made in vain. -/
theorem stepped (hb : Brings cmd.operands o n m m' ts ts') (hg : Balanced m ts)
    (hops : ∀ v ∈ cmd.operands, v.Within (Held (blocksOf m ts))) (ha : cmd.allocates = true)
    (hvs : ∀ v ∈ vs, v = .ofRef o)
    (hlost : ∀ x, Lost m' ts' x → Lost m ts x ∨ (m.own.mode = .eager ∧ x = o) ∨
      ∃ v ∈ cmd.lingering, Strands m ts v x) :
    Stepped cmd vs m m' ts ts' := by
  have hlive : ∀ {x}, m'.Reachable x → m.Live cmd.operands x :=
    fun hx => ((hb.reachable_iff (hg.closed_live hops)).mp hx).live
  have hnew : ¬ m.Live cmd.operands o := fun h => (hb.live o h).2 rfl
  refine ⟨hb.mode, hb.capacity, hb.balanced, by rw [hb.roots], fun b hm => ?_,
    fun b hm hreach => ?_, fun _ v hv x hx => ?_,
    fun x hx => ?_⟩
  · refine (hb.kept b hm).imp_right fun hnew => ⟨ha, fun hmode => (hb.idle hmode).2 _ hnew⟩
  · refine .inl ⟨((hb.kept b hm).resolve_right fun hm => ?_).1,
      fun i hi => .inl (hb.same b.1 i (hlive hreach) hi)⟩
    exact (hb.live _ (hlive hreach)).2 (List.mem_singleton.mp hm)
  · rw [hvs v hv, (hb.balanced.ref_held hb.held).1] at hx
    cases hx
    exact ⟨hb.held, fun h => hnew (hlive h), hnew⟩
  · rcases hlost x hx with h | ⟨hmode, rfl⟩ | h
    · exact .inl h
    · exact .inr (.inl ⟨hmode, ha, (hb.idle hmode).2 _ (by simp)⟩)
    · exact .inr (.inr h)

end Brings

theorem BindingMade.stepped {link entry key : Nat} {name : String}
    (hb : BindingMade v (m.roots.bucket (Text.encode name)) link entry key m m' ts ts') :
    Stepped (.define name v) [] m m' ts ts' := by
  have htable : m'.roots.tableSize = m.roots.tableSize := by
    rw [hb.roots]
    simp [Roots.tableSize]
  have hhash : m'.roots.hash = m.roots.hash := by
    rw [hb.roots]
    simp
  have hbucket : m'.roots.bucket (Text.encode name) = m.roots.bucket (Text.encode name) := by
    rw [Roots.bucket, Roots.bucket, htable, hhash]
  refine ⟨hb.mode, hb.capacity, hb.balanced, by rw [hb.roots]; simp, fun b hm => ?_,
    fun b hm hreach => ?_, False.elim,
    fun x hx => .inl (hb.lost x hx)⟩
  · exact (hb.kept b hm).imp_right fun hnew => ⟨rfl, fun hmode => hb.fresh hmode _ hnew⟩
  · rcases hb.reached b.1 hreach with hnew | hlive
    · refine .inr ⟨⟨name, v, link, entry, key, rfl, by
        rw [hbucket]; exact hb.binding, hb.distinct, hnew⟩, fun h => ?_⟩
      exact hb.apart b.1 h hnew
    · refine .inl ⟨((hb.kept b hm).resolve_right (hb.apart b.1 hlive)).1,
        fun i hi => .inl (hb.same b.1 i ⟨hlive, b.2, hm⟩ hi)⟩

/-! ## Every command -/

/-- The heap after a command that returns `vs`. -/
def Steps (cmd : Command) (m : Machine Counting) (ts : List Tile) (vs : List Value)
    (u' : Mutator) : Prop :=
  ∃ m' ts', u'.Counts m' ∧ Stepped cmd vs m m' ts ts'

/-- A command that fails has left the heap in order or poisoned, and not for want of a table with
room for three objects. -/
def StepFails (cmd : Command) (m : Machine Counting) (ts : List Tile) (e : Fault)
    (u' : Mutator) : Prop :=
  (u'.poisoned = true ∨ ∀ f, e = .failed f → Steps cmd m ts [] u') ∧ Uncrowded m 2 e

theorem steps_refl (hvs : cmd.Creates → ∀ v ∈ vs, v.ref? = none) (hu : u.Counts m)
    (hg : Balanced m ts) : Steps cmd m ts vs u :=
  ⟨m, ts, hu, .refl hvs hg⟩

theorem stepFails_of_stops {e : Fault} (hu : u.Counts m) (hg : Balanced m ts) (hn : n ≤ 2)
    (hs : StopsUncrowded u m n e u') : StepFails cmd m ts e u' := by
  refine ⟨hs.1.imp id fun h f hf => ?_, hs.2.mono rfl (by omega)⟩
  rw [h.2 f hf]
  exact steps_refl (by simp) hu hg

theorem stepFails_of_poisons {e : Fault} (h : Poisons m e u') : StepFails cmd m ts e u' :=
  ⟨.inl h.1, h.2.mono rfl (by omega)⟩

/-- Nothing has changed. -/
theorem fails_refl {e : Fault} (hu : u.Counts m) (hg : Balanced m ts)
    (he : ∀ f, e = .failed f → f.isFatal = false) : StepFails cmd m ts e u :=
  ⟨.inr fun _ _ => steps_refl (by simp) hu hg, (notTableFull_of_recoverable he).uncrowded⟩

/-- The command stopped without a failure that is reported. -/
theorem stepFails_of_ne {e : Fault} (he : ∀ f, e ≠ .failed f) : StepFails cmd m ts e u' :=
  ⟨.inr fun f hf => absurd hf (he f), fun _ _ => he _⟩

theorem stepFails_of_poisons_or_uncounted {e : Fault}
    (h : Poisons m e u' ∨ MutatorM.Uncounted u n e u') :
    StepFails cmd m ts e u' :=
  h.elim stepFails_of_poisons fun h => stepFails_of_ne fun f hf => by cases h.1.symm.trans hf

/-- A command that returns what `x` makes. -/
theorem returns_steps {α : Type} {x : MutatorM α} {f : α → List Value} {Q : α → Mutator → Prop}
    {E : Fault → Mutator → Prop} (hx : Ends x u Q E) (hq : ∀ a u', Q a u' → Steps cmd m ts (f a) u')
    (he : ∀ e u', E e u' → StepFails cmd m ts e u') :
    Ends (do return f (← x)) u (Steps cmd m ts) (StepFails cmd m ts) :=
  (hx.mono_error he).bind fun a u' h => .pure (hq a u' h)

/-- A command that only reads. -/
theorem reads_steps {α : Type} {x : MutatorM α} {f : α → List Value} (hu : u.Counts m)
    (hg : Balanced m ts) (hx : (∃ a, x u = .ok a u ∧ (cmd.Creates → ∀ v ∈ f a, v.ref? = none)) ∨
      ∃ e, (∀ f, e ≠ .failed f) ∧ x u = .error e u) :
    Ends (do return f (← x)) u (Steps cmd m ts) (StepFails cmd m ts) := by
  rcases hx with ⟨a, hx, hvs⟩ | ⟨e, hne, hx⟩
  · exact .step hx (.pure (steps_refl hvs hu hg))
  · exact (Ends.of_error (Q := fun _ _ => False) hx (stepFails_of_ne hne)).bind fun _ _ h => h.elim

/-- Nothing was parked. -/
theorem Brings.lost_plain (hb : Brings [] o n m m' ts ts') (hx : Lost m' ts' x) :
    Lost m ts x ∨ (m.own.mode = .eager ∧ x = o) ∨ ∃ v ∈ cmd.lingering, Strands m ts v x :=
  (hb.lost x hx).imp_right fun h => h.elim (fun h => .inl ⟨h.1, by simpa using h.2⟩)
    fun h => by simp at h

/-- A new object without operands is returned. -/
theorem Brings.steps (hu : u'.Counts m') (hb : Brings [] o n m m' ts ts') (hg : Balanced m ts)
    (hops : cmd.operands = []) (ha : cmd.allocates = true) : Steps cmd m ts [.ofRef o] u' := by
  have hb' : Brings cmd.operands o n m m' ts ts' := by rwa [hops]
  exact ⟨m', ts', hu, hb'.stepped hg (by simp [hops]) ha (by simp) fun x hx => hb.lost_plain hx⟩

theorem constructs_steps {y : MutatorM Value} {t : Tag} {aux : Word} {words : List Word}
    (hy : MutatorM.Constructs y t aux words) (hu : u.Counts m) (hg : Balanced m ts)
    (hops : cmd.operands = []) (ha : cmd.allocates = true) :
    Ends (do return [← y]) u (Steps cmd m ts) (StepFails cmd m ts) := by
  refine returns_steps (f := fun v => [v]) (constructs_counts hy hu hg) ?_ fun _ _ h =>
    stepFails_of_poisons_or_uncounted h
  rintro w u' ⟨m', ts', o, rfl, hu', hb, -⟩
  exact hb.steps hu' hg hops ha

theorem duplicate_steps (hu : u.Counts m) (hg : Balanced m ts)
    (hv : v.Within (Held (blocksOf m ts))) :
    Ends (Command.duplicate v).run u (Steps (.duplicate v) m ts)
      (StepFails (.duplicate v) m ts) := by
  cases hr : v.ref? with
  | none =>
    exact reads_steps (f := fun v => [v]) hu hg
      (.inl ⟨v, MutatorM.duplicate_immediate hr, fun _ => by simpa using hr⟩)
  | some src =>
    refine returns_steps (f := fun v => [v]) (duplicate_counts hu hg hv hr) ?_ fun _ _ h =>
      stepFails_of_stops hu hg (by decide) h
    rintro w u' ⟨m', ts', o, rfl, hu', hb⟩
    have hops : ∀ w ∈ (Command.duplicate v).operands, w.Within (Held (blocksOf m ts)) := by
      simpa [Command.operands] using hv
    refine ⟨m', ts', hu', Brings.stepped hb hg hops rfl (by simp) fun x hx => ?_⟩
    exact (hb.lost_cases hg hv hx).imp_right fun h =>
      h.imp_right fun h => ⟨v, by simp [Command.lingering], h⟩

theorem setPairField_steps {pair : Value} {i : Nat} (hu : u.Counts m) (hg : Balanced m ts)
    (hpark : m.roots.parked = 0) (hp : pair.Within (Held (blocksOf m ts)))
    (hv : v.Within (Held (blocksOf m ts))) (hio : i = 1 ∨ i = 2)
    (hstore : ∀ o, pair.ref? = some o → cmd.Stores m (o + i) v) :
    Ends (MutatorM.setPairField i pair v) u (fun _ => Steps cmd m ts []) (StepFails cmd m ts) := by
  have hap := hg.dying.stock.housed.objects_apart
  have hread : pair? pair u.machine.heap = .ok (m.heap.pairAt? pair) := by
    rw [hu.heap]
    exact pair?_run hap hp
  unfold MutatorM.setPairField
  refine .step (MutatorM.read_lift hread) ?_
  cases ho : m.heap.pairAt? pair with
  | none => exact .pure (steps_refl (by simp) hu hg)
  | some o =>
    obtain ⟨hr, ht⟩ := Arena.pairAt?_eq_some.mp ho
    have hf : o + i = o + 1 ∨ o + i = o + 2 := by omega
    have hheld := (hp o hr).2
    refine ((hu.operate (fun h => hosts.writeField o (o + i) v h)
      (writeField_runs hg hpark hheld ht hf hv)).mono ?_).mono_error
      fun _ _ h => stepFails_of_poisons h
    rintro - u' ⟨m', hu', ts', hthin, hst, hroots⟩
    refine ⟨m', ts', hu', .of_subset (by simp) hthin.mode hthin.capacity hthin.balanced
      (by rw [hroots])
      (fun _ hb => hthin.sublist.subset hb) (fun x hx => ?_) (fun x hx j hj => ?_) hthin.lost⟩
    · have hx₀ := hthin.held hx
      have hw := hst x 0 hx (Arena.payload_pos (hap.closed.known x hx₀))
      rwa [if_neg (by simpa using hap.field_ne hheld ht hf hx₀)] at hw
    · have hw := hst x j hx hj
      split at hw
      · rename_i hfield
        refine .inr ⟨v, ?_, ?_⟩
        · rw [hfield]
          exact hstore o hr
        · rw [Arena.value, hw]
      · exact .inl hw

/-- The invariant that every strategy has. -/
theorem push_steps (hu : u.Counts m) (hg : Balanced m ts) (hpark : m.roots.parked = 0)
    (hv : v.Within (Held (blocksOf m ts))) :
    Ends (MutatorM.push v) u (fun _ => Steps cmd m ts []) (StepFails cmd m ts) := by
  have hl := (laws m.own.mode m.own.zeroCounts.capacity).hosted hosts
  cases hroom : Roots.parking u.machine.roots.stack.size u.machine.roots.capacity 1 with
  | ok =>
    obtain ⟨hcap, hlim⟩ := Roots.room_of_parking hroom
    rw [hu.roots] at hcap hlim
    obtain ⟨m', hrun, hg', hlost, hsame, hown, hroots, -⟩ := push_run hg hpark hv hcap hlim
    have hblocks : blocksOf m' ts = blocksOf m ts := by rw [blocksOf, hown, blocksOf]
    have hst : Stepped cmd [] m m' ts ts :=
      .of_same (by simp) (by rw [hown]) (by rw [hown]) hg hg' (by rw [hroots])
        (fun _ hb => hblocks ▸ hb)
        (by rw [hblocks]; exact hsame) hlost
    refine ((hu.operate (fun h => hosts.push v h) (Q := fun _ => Eq m')
      (Runs.of_eq hrun rfl)).mono ?_).mono_error fun _ _ h => stepFails_of_poisons h
    rintro - u' ⟨_, hu', rfl⟩
    exact ⟨m', ts, hu', hst⟩
  | error e =>
    refine .of_error (MutatorM.operate_error hu.clean
      (hl.push_fails (hosted hu hg) (pushRoot_error hroom)) (Roots.not_fatal_of_parking hroom)) ?_
    exact fails_refl hu hg (Roots.not_fatal_of_parking hroom)

theorem pop_steps (hu : u.Counts m) (hg : Balanced m ts) (hpark : m.roots.parked = 0) :
    Ends MutatorM.pop u (fun v => Steps .pop m ts [v]) (StepFails .pop m ts) := by
  have hl := (laws m.own.mode m.own.zeroCounts.capacity).hosted hosts
  cases hv : m.roots.stack.back? with
  | none =>
    refine .of_error (MutatorM.pop_empty hl (hosted hu hg) hu.clean (by rw [hu.roots]; exact hv)) ?_
    exact fails_refl hu hg fun f hf => by cases hf; rfl
  | some v =>
    refine ((hu.operate (fun h => hosts.pop h) (pop_runs hg hpark hv)).mono ?_).mono_error
      fun _ _ h => stepFails_of_poisons h
    rintro w u' ⟨m', hu', -, ts', hthin, hsame, hroots⟩
    exact ⟨m', ts', hu', hthin.stepped False.elim hg (by rw [hroots]) hsame⟩

theorem writeRoot_steps (hu : u.Counts m) (hg : Balanced m ts) (hpark : m.roots.parked = 0)
    (slot : RootSlot) (hv : v.Within (Held (blocksOf m ts))) :
    Ends (MutatorM.writeRoot slot v) u (fun _ => Steps cmd m ts []) (StepFails cmd m ts) := by
  have hl := (laws m.own.mode m.own.zeroCounts.capacity).hosted hosts
  cases hs : m.roots.get? slot with
  | none =>
    obtain ⟨u', hrun⟩ := MutatorM.writeRoot_absent hl (hosted hu hg) hu.clean
      (by rw [hu.roots]; exact hs) hv
    exact .of_error hrun (stepFails_of_ne fun f hf => by cases hf)
  | some old =>
    refine ((hu.operate (fun h => hosts.writeRoot slot v h)
      (writeRoot_runs hg hpark hs hv)).mono ?_).mono_error fun _ _ h => stepFails_of_poisons h
    rintro - u' ⟨m', hu', ts', hthin, hsame, hroots⟩
    exact ⟨m', ts', hu', hthin.stepped (by simp) hg (by rw [hroots]; simp) hsame⟩

theorem define_steps (hu : u.Counts m) (hg : Balanced m ts) (hpark : m.roots.parked = 0)
    (name : String) (hv : v.Within (Held (blocksOf m ts))) :
    Ends (MutatorM.define name v) u (fun _ => Steps (.define name v) m ts [])
    (StepFails (.define name v) m ts) := by
  have hl := (laws m.own.mode m.own.zeroCounts.capacity).hosted hosts
  have hbucket : MutatorM.bucketOf name u.machine =
      .ok (m.roots.bucket (Text.encode name)) u.machine := by
    rw [← hu.roots]
    rfl
  unfold MutatorM.define
  refine .step (MutatorM.gc_lift hbucket) ?_
  rw [MutatorM.defineAt_eq]
  refine .step (MutatorM.check_run hu.clean) ?_
  rcases MutatorM.entryAt?_ends hl (hosted hu hg)
    (m.roots.bucket (Text.encode name)) name with ⟨head, r, hh, hrun, hrw⟩ | ⟨e, hne, hrun⟩
  · refine .step (MutatorM.gc_lift hrun) ?_
    cases r with
    | some entry =>
      have hfound := MutatorM.entryFrom?_of_run hh hrun
      rw [hu.roots] at hh
      rw [hu.heap] at hfound
      exact setPairField_steps hu hg hpark (hrw entry rfl) hv (.inr rfl) fun o ho =>
        ⟨head, entry, o, hh, hfound, ho, rfl, rfl⟩
    | none =>
      rw [hu.roots] at hh
      refine ((bindNew_counts hu hg hpark hv hh name).mono ?_).mono_error ?_
      · rintro - u' ⟨m', ts', link, entry, key, hu', hb⟩
        exact ⟨m', ts', hu', hb.stepped⟩
      · rintro e u' ⟨hp | h, hcrowd⟩
        · exact ⟨.inl hp, hcrowd⟩
        · refine ⟨.inr fun f hf => ?_, hcrowd⟩
          rcases h f hf with rfl | ⟨m', ts', key, n, hu', hb⟩
          · exact steps_refl False.elim hu hg
          · have hops : ∀ w ∈ (Command.define name v).operands,
                w.Within (Held (blocksOf m ts)) := by
              simpa [Command.operands] using hv
            refine ⟨m', ts', hu', Brings.stepped hb hg hops rfl (by simp) fun x hx => ?_⟩
            exact (hb.lost_cases hg hv hx).imp_right fun h =>
              h.imp_right fun h => ⟨v, by simp [Command.lingering], h⟩
  · refine (Ends.of_error (Q := fun _ _ => False) (MutatorM.gc_lift_error hrun) ?_).bind
      fun _ _ h => h.elim
    exact stepFails_of_ne hne

theorem collect_steps (hu : u.Counts m) (hg : Balanced m ts) :
    Ends MutatorM.collect u (fun _ => Steps cmd m ts []) (StepFails cmd m ts) ∧
      Ends MutatorM.collectFull u (fun _ => Steps cmd m ts []) (StepFails cmd m ts) := by
  have hstep : ∀ (_ : Unit) u', (∃ m', u'.Counts m' ∧ ∃ ts' k, k ≤ 1 ∧ AfterScans m ts m' ts' k) →
      Steps cmd m ts [] u' := by
    rintro - u' ⟨m', hu', ts', k, -, hs⟩
    exact ⟨m', ts', hu', hs.stepped hg⟩
  refine ⟨((hu.operate (fun h => hosts.collect h) ?_).mono hstep).mono_error
    fun _ _ h => stepFails_of_poisons h,
    ((hu.operate (fun h => hosts.collectFull h) ?_).mono hstep).mono_error fun _ _ h =>
      stepFails_of_poisons h⟩
  · exact collect_scans hg
  · exact collect_scans hg

/-- One command, with operands that are listed. -/
theorem steps (hu : u.Counts m) (hg : Balanced m ts) (hpark : m.roots.parked = 0) (cmd : Command)
    (hops : ∀ v ∈ cmd.operands, v.Within (Held (blocksOf m ts))) :
    Ends cmd.run u (Steps cmd m ts) (StepFails cmd m ts) := by
  have hl := (laws m.own.mode m.own.zeroCounts.capacity).hosted hosts
  have hap := hl.apart (hosted hu hg)
  cases cmd with
  | allocate bytes =>
    refine returns_steps (f := fun o => [.ofRef o]) (allocateWords_counts hu hg (by omega)) ?_
      fun _ _ h => stepFails_of_poisons_or_uncounted h
    rintro o u' ⟨m', ts', hu', hb, -⟩
    exact hb.steps hu' hg rfl rfl
  | char c => exact constructs_steps (MutatorM.char_constructs c) hu hg rfl rfl
  | string s =>
    exact constructs_steps (MutatorM.text_constructs (.inl rfl) (Text.encode s)) hu hg rfl rfl
  | symbol s =>
    exact constructs_steps (MutatorM.text_constructs (.inr rfl) (Text.encode s)) hu hg rfl rfl
  | lambda entry params variadic =>
    exact constructs_steps (MutatorM.lambda_constructs entry params variadic) hu hg rfl rfl
  | cons a b =>
    have ha := hops a (by simp [Command.operands])
    have hb := hops b (by simp [Command.operands])
    refine returns_steps (f := fun v => [v]) (cons_counts hu hg ha hb) ?_ fun _ _ h =>
      stepFails_of_stops hu hg (Nat.le_refl 2) h
    rintro w u' ⟨-, m', ts', o, rfl, hu', hp⟩
    refine ⟨m', ts', hu', Brings.stepped hp.toBrings hg hops rfl (by simp) fun x hx => ?_⟩
    exact (hp.unlost x hx).2.2.imp_right .inl
  | duplicate v => exact duplicate_steps hu hg (hops v (by simp [Command.operands]))
  | setCar pair v =>
    have hstore : ∀ o, pair.ref? = some o → (Command.setCar pair v).Stores m (o + 1) v :=
      fun o ho => ⟨o, ho, rfl, rfl⟩
    exact returns_steps (f := fun _ => [])
      (setPairField_steps hu hg hpark (hops pair (by simp [Command.operands]))
        (hops v (by simp [Command.operands])) (.inl rfl) hstore)
      (fun _ _ h => h) fun _ _ h => h
  | setCdr pair v =>
    have hstore : ∀ o, pair.ref? = some o → (Command.setCdr pair v).Stores m (o + 2) v :=
      fun o ho => ⟨o, ho, rfl, rfl⟩
    exact returns_steps (f := fun _ => [])
      (setPairField_steps hu hg hpark (hops pair (by simp [Command.operands]))
        (hops v (by simp [Command.operands])) (.inr rfl) hstore)
      (fun _ _ h => h) fun _ _ h => h
  | push v =>
    exact returns_steps (f := fun _ => [])
      (push_steps hu hg hpark (hops v (by simp [Command.operands]))) (fun _ _ h => h) fun _ _ h => h
  | pop =>
    exact returns_steps (f := fun v => [v]) (pop_steps hu hg hpark) (fun _ _ h => h) fun _ _ h => h
  | writeRoot slot v =>
    exact returns_steps (f := fun _ => [])
      (writeRoot_steps hu hg hpark slot (hops v (by simp [Command.operands])))
        (fun _ _ h => h) fun _ _ h => h
  | define name v =>
    exact returns_steps (f := fun _ => [])
      (define_steps hu hg hpark name (hops v (by simp [Command.operands])))
        (fun _ _ h => h) fun _ _ h => h
  | collect =>
    exact returns_steps (f := fun _ => []) (collect_steps hu hg).1 (fun _ _ h => h) fun _ _ h => h
  | collectFull =>
    exact returns_steps (f := fun _ => []) (collect_steps hu hg).2 (fun _ _ h => h) fun _ _ h => h
  | setStress on =>
    let m' : Machine Counting := { m with stress := on }
    have hg' : Balanced m' ts := hg.of_eq rfl rfl rfl
    refine .of_eq (a := []) (t := { u with machine := { u.machine with stress := on } }) rfl
      ⟨m', ts, ⟨by rw [hu.machine]; rfl, hu.clean⟩, ?_⟩
    exact .of_same False.elim rfl rfl hg hg' rfl (fun _ hb => hb) (.refl _ _) fun x hx =>
      hx.of_refs rfl (fun _ h => h) fun _ h => h
  | peek depth =>
    exact .of_eq (a := (u.peek? depth).toList) (t := u) rfl (steps_refl False.elim hu hg)
  | car v =>
    have hrun := car?_run hap (hops v (by simp [Command.operands]))
    exact reads_steps (f := Option.toList) hu hg (.inl ⟨_, MutatorM.read_lift hrun, False.elim⟩)
  | cdr v =>
    have hrun := cdr?_run hap (hops v (by simp [Command.operands]))
    exact reads_steps (f := Option.toList) hu hg (.inl ⟨_, MutatorM.read_lift hrun, False.elim⟩)
  | lookup name =>
    have hrun := MutatorM.lookup?_eq name u
    refine reads_steps (f := Option.toList) hu hg ?_
    rcases MutatorM.lookupAt?_ends hl (hosted hu hg)
      (u.bucket name) name with ⟨r, hr, -⟩ | ⟨e, hne, he⟩
    · exact .inl ⟨r, MutatorM.gc_lift (hrun.trans hr), False.elim⟩
    · exact .inr ⟨e, hne, MutatorM.gc_lift_error (hrun.trans he)⟩

end Counting

end Reclaim
