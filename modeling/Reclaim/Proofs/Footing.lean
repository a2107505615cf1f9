import Reclaim.Proofs.Counting.Operations
import Reclaim.Proofs.Generational.Allocation
import Reclaim.Proofs.MarkSweep.Operations
import Reclaim.Proofs.Reports
import Reclaim.Proofs.Semispace.Operations
import Reclaim.Proofs.Sliding.Operations

/-!
# The stack under a collector

No collector pushes or pops while it allocates or collects, and every failure that it reports is
fatal, whatever state the heap is in (`GcM.Footed`). A request that is too large is refused before
anything else is done, and what is done after that never reports it (`GcM.Contained`).
-/

namespace Reclaim

variable {σ τ α β : Type}

/-- How many values the stack may hold, and how many buckets the global table has. -/
def Roots.frame (r : Roots) : Nat × Nat := (r.capacity, r.globals.size)

def Machine.frame (m : Machine σ) : Nat × Nat := m.roots.frame

/-- How many values the stack holds, and the frame that it stands in. -/
def Machine.footing (m : Machine σ) : Nat × Nat × Nat := (m.roots.stack.size, m.frame)

/-- Fatal failures. -/
def Grave (f : Failure) : Prop := f.isFatal = true

/-- Fatal failures of a collector at work, unlike the refusal of a request that is too large. -/
def Internal (f : Failure) : Prop :=
  Grave f ∧ ∀ requested limit, f ≠ .objectTooLarge requested limit

/-- Whatever comes of the computation, the stack is as high as before, and a failure is fatal. -/
abbrev GcM.Footed (x : GcM σ α) : Prop := Keeps Machine.footing Grave x

/-- And nothing is refused. -/
abbrev GcM.Contained (x : GcM σ α) : Prop := Keeps Machine.footing Internal x

instance (priority := low) GcM.Footed.of_contained {x : GcM σ α} [hx : Contained x] : Footed x :=
  ⟨fun m => (hx.ends m).mono_error fun _ _ h => ⟨h.1, fun f hf => (h.2 f hf).1⟩⟩

namespace GcM.Contained

instance {m : Type → Type} [MonadLiftT m HeapM] {x : m α}
    [hx : HeapM.Reports Internal (liftM x : HeapM α)] :
    Contained (liftM x : GcM σ α) := by
  refine ⟨fun s => ?_⟩
  have heq : (liftM x : GcM σ α) s = match (liftM x : HeapM α) s.heap with
    | .ok a heap => .ok a (s.withHeap heap)
    | .error e heap => .error e (s.withHeap heap) := rfl
  cases hr : (liftM x : HeapM α) s.heap with
  | ok a h =>
    rw [hr] at heq
    exact .of_eq heq rfl
  | error e h =>
    rw [hr] at heq
    exact .of_error heq ⟨rfl, ((hx.ends s.heap).error hr).2⟩

theorem fail {f : Failure} (hf : Internal f) : Contained (GcM.fail f : GcM σ α) := Keeps.fail hf

instance {n : Nat} : Contained (GcM.bytes n : GcM σ UInt64) := by unfold GcM.bytes; infer_instance

instance {strategy : Strategy} {size : Nat} : Contained (GcM.exhausted strategy size : GcM σ α) :=
  Keeps.bind fun _ => fail ⟨rfl, nofun⟩

instance {size limit : Nat} : Footed (GcM.tooLarge size limit : GcM σ α) :=
  Keeps.bind fun _ => Keeps.bind fun _ => Keeps.fail rfl

instance : Contained (GcM.own : GcM σ σ) := ⟨fun _ => .of_eq rfl rfl⟩
instance : Contained (GcM.roots : GcM σ Roots) := ⟨fun _ => .of_eq rfl rfl⟩
instance : Contained (GcM.heapSize : GcM σ Nat) := ⟨fun _ => .of_eq rfl rfl⟩
instance : Contained (GcM.stressed : GcM σ Bool) := ⟨fun _ => .of_eq rfl rfl⟩
instance {f : σ → σ} : Contained (GcM.modifyOwn f) := ⟨fun _ => .of_eq rfl rfl⟩
instance {kind : CycleKind} {reclaimed live : Nat} :
    Contained (GcM.recordCycle kind reclaimed live : GcM σ Unit) := ⟨fun _ => .of_eq rfl rfl⟩
instance : Contained (GcM.scratch : GcM (σ × τ) τ) := ⟨fun _ => .of_eq rfl rfl⟩
instance {t : τ} : Contained (GcM.setScratch t : GcM (σ × τ) Unit) := ⟨fun _ => .of_eq rfl rfl⟩
instance {f : τ → τ} : Contained (GcM.modifyScratch f : GcM (σ × τ) Unit) :=
  ⟨fun _ => .of_eq rfl rfl⟩

instance {t : τ} {x : GcM (σ × τ) α} [hx : Contained x] : Contained (GcM.withScratch t x) := by
  refine ⟨fun m => ?_⟩
  have h := hx.ends (m.withOwn (m.own, t))
  unfold Ends at h ⊢
  unfold GcM.withScratch
  cases hr : x (m.withOwn (m.own, t)) <;> (rw [hr] at h; exact h)

instance {x : GcM σ α} [hx : Contained x] : Contained (liftM x : GcM (σ × τ) α) := by
  refine ⟨fun m => ?_⟩
  have h := hx.ends (m.withOwn m.own.1)
  unfold Ends at h ⊢
  rw [GcM.embed_eq]
  cases hr : x (m.withOwn m.own.1) <;> (rw [hr] at h; exact h)

instance {slot : RootSlot} : Contained (liftM (getRoot slot) : GcM σ Value) := by
  refine ⟨fun m => ?_⟩
  unfold Ends
  rw [roots_lift_eq, getRoot]
  cases m.roots.get? slot with
  | some v => rfl
  | none => exact ⟨rfl, by simp⟩

instance {slot : RootSlot} {v : Value} : Contained (liftM (setRoot slot v) : GcM σ Unit) := by
  refine ⟨fun m => ?_⟩
  unfold Ends
  rw [roots_lift_eq, setRoot.eq_def]
  cases slot with
  | stack i =>
    by_cases hi : i < m.roots.stack.size <;> simp [hi, Machine.footing, Machine.frame, Roots.frame]
  | global i =>
    by_cases hi : i < m.roots.globals.size <;>
      simp [hi, Machine.footing, Machine.frame, Roots.frame]

end GcM.Contained

/-! ## Visiting -/

section Visiting

variable {visit : Value → GcM σ Value} [∀ v, GcM.Contained (visit v)] {a n o : Nat} {v : Value}

instance : ReadM.Reports Internal (tagOf o) := by
  refine ReadM.Reports.bind fun code => ?_
  split
  · infer_instance
  · exact .fail ⟨rfl, nofun⟩

instance : ReadM.Reports Internal (payloadWords o) := by
  refine ReadM.Reports.bind fun tag => ?_
  split <;> infer_instance

instance : ReadM.Reports Internal (pointerFields o) := by
  refine ReadM.Reports.bind fun tag => ?_
  split <;> infer_instance

instance : ReadM.Reports Internal (children o) := by unfold children; infer_instance
instance {p : Nat → Bool} : ReadM.Reports Internal (anyChild p o) := by
  unfold anyChild; infer_instance

instance {P : Failure → Prop} {offset : Nat} : ReadM.Reports P (forwardingAt offset o) := by
  unfold forwardingAt; infer_instance

instance {P : Failure → Prop} {offset : Nat} : ReadM.Reports P (redirectAt offset v) := by
  unfold redirectAt
  split
  · infer_instance
  · refine ReadM.Reports.bind fun moved => ?_
    split <;> infer_instance

instance {P : Failure → Prop} {header offset top scan : Nat} :
    ReadM.Reports P (blocksFrom header offset top n scan) := by
  induction n generalizing scan <;> (unfold blocksFrom; infer_instance)

instance {P : Failure → Prop} {header offset : Nat} {b : Bump} :
    ReadM.Reports P (blocksOf header offset b) := by
  unfold blocksOf
  infer_instance

instance {field : Nat} : GcM.Contained (visitField visit field) := by
  unfold visitField; infer_instance
instance : GcM.Contained (traceObject visit o) := by unfold traceObject; infer_instance
instance {slot : RootSlot} : GcM.Contained (visitRoot visit slot) := by
  unfold visitRoot; infer_instance
instance : GcM.Contained (traceRoots visit) := by unfold traceRoots; infer_instance

end Visiting

namespace Marking

variable {claim : Nat → GcM σ Bool} [∀ o, GcM.Contained (claim o)]
  {visit : Value → GcM (σ × MarkStack) Value}
  [∀ v, GcM.Contained (visit v)] {n : Nat} {v : Value}

instance : GcM.Contained (shade claim v) := by
  unfold shade
  split
  · infer_instance
  · refine Keeps.bind fun fresh => ?_
    have hfull : ∀ stack : MarkStack,
      GcM.Contained (GcM.fail stack.overflow : GcM (σ × MarkStack) PUnit) :=
        fun _ => .fail ⟨rfl, nofun⟩
    infer_instance

instance : GcM.Contained (next? : GcM (σ × MarkStack) (Option Nat)) := by
  refine Keeps.bind fun stack => ?_
  split <;> infer_instance

instance : GcM.Contained (drain visit n) := by
  induction n with
  | zero => unfold drain; infer_instance
  | succ n ih =>
    refine Keeps.bind fun obj => ?_
    split <;> infer_instance

instance {capacity : Nat} : GcM.Contained (mark capacity claim) := by unfold mark; infer_instance

end Marking

/-! ## Copying -/

namespace Semispace

variable {o n : Nat} {v : Value}

instance {P : Failure → Prop} : ReadM.Reports P (blockSize o) := by unfold blockSize; infer_instance
instance {P : Failure → Prop} {target : Nat} : HeapM.Reports P (setForwarding o target) := by
  unfold setForwarding; infer_instance

instance : GcM.Contained (forward v) := by
  unfold forward
  split
  · infer_instance
  · refine Keeps.bind fun moved => ?_
    split
    · infer_instance
    · refine Keeps.bind fun size => Keeps.bind fun copies => ?_
      split <;> infer_instance

instance {scan : Nat} : GcM.Contained (scanCopies n scan) := by
  induction n generalizing scan <;> (unfold scanCopies; infer_instance)

instance : GcM.Contained evacuate := by
  unfold evacuate
  infer_instance

instance : GcM.Contained (handOut n) := by
  refine Keeps.bind fun s => ?_
  split <;> infer_instance

instance : GcM.Footed (allocate n) := by rw [allocate_eq]; infer_instance

end Semispace

/-! ## The free list -/

namespace FreeList

variable {P : Failure → Prop} {l : FreeList} {a n size : Nat} {prev cur : Option Nat}

instance : ReadM.Reports P (chunkSize a) := by unfold chunkSize; infer_instance
instance : ReadM.Reports P (chunkNext a) := by unfold chunkNext; infer_instance
instance : ReadM.Reports P walkBound := by unfold walkBound; infer_instance
instance {next : Option Nat} : HeapM.Reports P (writeChunk a size next) := by
  unfold writeChunk; infer_instance

instance {target : Option Nat} : HeapM.Reports P (l.link prev target) := by
  unfold link
  split <;> infer_instance

instance : HeapM.Reports P (l.pushBack a size) := by
  unfold pushBack
  dsimp only
  split
  · refine Keeps.bind fun len => Keeps.bind fun touching => ?_
    split <;> infer_instance
  · refine Keeps.bind fun touching => ?_
    split <;> infer_instance

instance {fit : Fit} {found : Option Candidate} :
    ReadM.Reports P (search fit size n prev cur found) := by
  induction n generalizing prev cur found with
  | zero => unfold search; infer_instance
  | succ n ih => cases cur <;> (unfold search; infer_instance)

instance : HeapM.Reports P (l.take size) := by
  unfold take
  dsimp only
  refine Keeps.bind fun bound => Keeps.bind fun found => ?_
  split <;> infer_instance

instance : ReadM.Reports P (around a n prev cur) := by
  induction n generalizing prev cur with
  | zero => unfold around; infer_instance
  | succ n ih => cases cur <;> (unfold around; infer_instance)

instance : HeapM.Reports P (touching a prev) := by
  unfold touching
  split <;> infer_instance

instance : HeapM.Reports P (nextOf a n cur) := by
  unfold nextOf
  split <;> infer_instance

instance {len : Nat} {next : Option Nat} : HeapM.Reports P (l.settle prev a len next) := by
  refine Keeps.bind fun before => ?_
  split <;> infer_instance

instance : HeapM.Reports P (l.give a size) := by unfold give; infer_instance

end FreeList

namespace MarkSweep

variable {o n : Nat}

instance {a : Nat} : GcM.Contained (isMarked a) := by
  refine Keeps.bind fun marks => ?_
  split <;> infer_instance

instance : GcM.Contained (claim o) := by unfold claim; infer_instance

instance {limit scan live : Nat} : GcM.Contained (sweepFrom limit n scan live) := by
  induction n generalizing scan live <;> (unfold sweepFrom; infer_instance)

instance : GcM.Contained sweep := by unfold sweep; infer_instance
instance : GcM.Contained collect := by unfold collect; infer_instance
instance {size : Nat} : GcM.Contained (take? size) := by unfold take?; infer_instance

instance {size : Nat} : GcM.Contained (acquire size) := by
  refine Keeps.bind fun found => ?_
  split
  · infer_instance
  · refine Keeps.bind fun _ => Keeps.bind fun found => ?_
    split <;> infer_instance

instance {found : Nat × Nat} : GcM.Contained (fill found) := by unfold fill; infer_instance

instance : GcM.Footed (allocate n) := by
  rw [allocate_eq]
  have hserve : GcM.Footed (acquire (blockWords n) >>= fill) := inferInstance
  refine Keeps.bind fun s => ?_
  infer_instance

end MarkSweep

namespace Sliding

variable {o n : Nat} {v : Value}

instance {P : Failure → Prop} : ReadM.Reports P (blockSize o) := by unfold blockSize; infer_instance
instance {P : Failure → Prop} : ReadM.Reports P (isMarked o) := by unfold isMarked; infer_instance
instance : GcM.Contained (claim o : GcM σ Bool) := by unfold claim; infer_instance
instance {P : Failure → Prop} {s : Sliding} : ReadM.Reports P s.objects := by
  unfold objects; infer_instance

instance {P : Failure → Prop} {top : Nat} {live : List Nat} :
    HeapM.Reports P (assign top live) := by
  induction live generalizing top <;> (unfold assign; infer_instance)

instance : GcM.Contained (redirect v : GcM σ Value) := by unfold redirect; infer_instance

instance {P : Failure → Prop} : HeapM.Reports P (slide o) := by
  refine Keeps.bind fun moved => ?_
  split <;> infer_instance

instance : GcM.Contained collect := by
  refine Keeps.bind fun s =>
    Keeps.bind fun _ => Keeps.bind fun objs => Keeps.bind fun live => Keeps.bind fun top => ?_
  infer_instance

instance : GcM.Contained (handOut n) := by
  refine Keeps.bind fun s => ?_
  split
  · infer_instance
  · refine Keeps.bind fun _ => Keeps.bind fun _ => ?_
    infer_instance

instance : GcM.Footed (allocate n) := by rw [allocate_eq]; infer_instance

end Sliding

/-! ## Generations -/

namespace Generational

variable {P : Failure → Prop} {o n : Nat} {v : Value} {young : Region} {flag : Word} {on : Bool}

instance : ReadM.Reports P (blockSize o) := by unfold blockSize; infer_instance
instance : ReadM.Reports P (flags o) := by unfold flags; infer_instance
instance : ReadM.Reports P (hasFlag flag o) := by unfold hasFlag; infer_instance
instance : ReadM.Reports P (forwarding o) := by unfold forwarding; infer_instance
instance : ReadM.Reports Internal (pointsInto young o) := by unfold pointsInto; infer_instance
instance : HeapM.Reports P (setFlag flag on o) := by unfold setFlag; infer_instance
instance {target : Nat} : HeapM.Reports P (setForwarding o target) := by
  unfold setForwarding; infer_instance

instance {set : RememberedSet} : GcM.Contained (GcM.fail set.full : GcM σ α) := .fail ⟨rfl, nofun⟩

/-- Entries that cannot be read are kept, and one of their failures is passed on as a result. -/
theorem keepYoung_ends (entries : List Nat) (m : Machine Generational) :
    Ends (keepYoung young entries) m
      (fun r m' => m'.footing = m.footing ∧ ∀ f, r.2 = some f → Internal f) fun e m' =>
      m'.footing = m.footing ∧ ∀ f, e = .failed f → Internal f := by
  induction entries generalizing m with
  | nil => exact .pure ⟨rfl, by simp⟩
  | cons obj rest ih =>
    have hread : GcM.Contained (liftM (pointsInto young obj) : GcM Generational Bool) :=
      inferInstance
    have hflag : GcM.Contained (liftM (setFlag rememberedFlag false obj) : GcM Generational Unit) :=
      inferInstance
    have hrest : ∀ m₁ : Machine Generational, m₁.footing = m.footing →
      Ends (keepYoung young rest) m₁
        (fun r m' => m'.footing = m.footing ∧ ∀ f, r.2 = some f → Internal f) fun e m' =>
          m'.footing = m.footing ∧ ∀ f, e = .failed f → Internal f :=
      fun m₁ h₁ => ((ih m₁).mono fun _ _ h => ⟨h.1.trans h₁, h.2⟩).mono_error fun _ _ h =>
        ⟨h.1.trans h₁, h.2⟩
    refine (Keeps.attempt_ends hread m).bind fun r m₁ h₁ => ?_
    match r with
    | .ok true => exact (hrest m₁ h₁.1).bind fun kept m₂ h₂ => .pure h₂
    | .ok false =>
      refine (((hflag.ends m₁).mono_error fun _ _ h => ⟨h.1.trans h₁.1, h.2⟩).bind
        fun _ m₂ h₂ => hrest m₂ (h₂.trans h₁.1))
    | .error f =>
      refine (hrest m₁ h₁.1).bind fun kept m₂ h₂ => .pure ⟨h₂.1, ?_⟩
      rintro _ ⟨⟩
      exact h₁.2 f rfl

instance : GcM.Contained (cleanRemembered young) := by
  refine Keeps.bind fun g => ⟨fun m => (keepYoung_ends _ m).bind fun r m₁ h₁ => ?_⟩
  have hreport : GcM.Contained (do
      GcM.modifyOwn fun g : Generational => { g with remembered := g.remembered.withEntries r.1 }
      if let some f := r.2 then GcM.fail f) := by
    refine Keeps.bind fun _ => ?_
    split
    · exact .fail (h₁.2 _ ‹_›)
    · infer_instance
  exact ((hreport.ends m₁).mono fun _ _ h => h.trans h₁.1).mono_error fun _ _ h =>
    ⟨h.1.trans h₁.1, h.2⟩

instance : GcM.Contained (addRemembered o) := by unfold addRemembered; infer_instance
instance : GcM.Contained (remember young o) := by unfold remember; infer_instance

instance : GcM.Contained (forward v) := by
  unfold forward
  split
  · infer_instance
  · refine Keeps.bind fun old => ?_
    have hcopy : ∀ obj, GcM.Contained (do
        let size ← blockSize obj
        let ev ← GcM.scratch
        match place? ev old size with
        | none => GcM.exhausted .generational size
        | some (dst, ev') =>
          GcM.setScratch ev'
          copyWords (← back obj headerWords) dst size
          let moved := dst + headerWords
          setForwarding moved 0
          storeHeader moved flagsOffset (agedFlags ev.threshold old)
          setForwarding obj moved
          return .ofRef moved : GcM (Generational × Evacuation) Value) := by
      intro obj
      refine Keeps.bind fun size => Keeps.bind fun ev => ?_
      split
      · infer_instance
      · refine Keeps.bind fun _ => Keeps.bind fun src => Keeps.bind fun _ => ?_
        infer_instance
    dsimp only
    split
    · infer_instance
    · refine Keeps.bind fun moved => ?_
      split
      · infer_instance
      · exact hcopy _

instance {scan : Nat} : GcM.Contained (scanYoung n scan) := by
  induction n generalizing scan <;> (unfold scanYoung; infer_instance)

instance {scan : Nat} : GcM.Contained (scanOld young n scan) := by
  induction n generalizing scan with
  | zero => unfold scanOld; infer_instance
  | succ n ih =>
    have hnext : GcM.Contained (do
        scanOld young n (scan + (← blockSize (scan + headerWords))) :
          GcM (Generational × Evacuation) Nat) := inferInstance
    refine Keeps.bind fun ev => ?_
    infer_instance

instance {bound youngScan oldScan : Nat} :
    GcM.Contained (scanAll young bound n youngScan oldScan) := by
  induction n generalizing youngScan oldScan <;> (unfold scanAll; infer_instance)

instance {threshold : Nat} : GcM.Contained (evacuate threshold) := by
  unfold evacuate; infer_instance
instance : GcM.Contained collectMinor := by unfold collectMinor; infer_instance

instance : GcM.Contained (claim o) := by unfold claim; infer_instance
instance {space : Bump} : ReadM.Reports P (markedIn space) := by unfold markedIn; infer_instance

instance {live : List Nat} : HeapM.Reports Internal (flagRemembered young live) := by
  induction live <;> (unfold flagRemembered; infer_instance)

instance {top : Nat} {live : List Nat} : HeapM.Reports P (assign top live) := by
  induction live generalizing top <;> (unfold assign; infer_instance)

instance : GcM.Contained (redirect v) := by unfold redirect; infer_instance

instance : GcM.Contained (slide o) := by
  refine Keeps.bind fun moved => ?_
  split
  · infer_instance
  · refine Keeps.bind fun size => Keeps.bind fun src => Keeps.bind fun dst => Keeps.bind fun _ => ?_
    infer_instance

instance : GcM.Contained collectMajor := by
  refine Keeps.bind fun g =>
    Keeps.bind fun _ => Keeps.bind fun old => Keeps.bind fun young => Keeps.bind fun count => ?_
  have hyoung : GcM.Contained (young.forM fun obj => do
      traceObject redirect obj
      setFlag markedFlag false obj : GcM Generational Unit) := inferInstance
  dsimp only
  split
  · refine Keeps.bind fun _ =>
      Keeps.bind fun top => Keeps.bind fun _ => Keeps.bind fun _ => Keeps.bind fun _ => ?_
    infer_instance
  · refine Keeps.bind fun top => Keeps.bind fun _ => Keeps.bind fun _ => Keeps.bind fun _ => ?_
    infer_instance

instance : GcM.Contained collect := by unfold collect; infer_instance
instance : GcM.Contained collectFull := by unfold collectFull; infer_instance

instance : GcM.Contained (handOut n) := by
  refine Keeps.bind fun g => ?_
  split
  · infer_instance
  · refine Keeps.bind fun _ => Keeps.bind fun _ => ?_
    infer_instance

instance : GcM.Footed (allocate n) := by
  rw [allocate_eq]
  have hserve : GcM.Footed (do
      if !(← GcM.own).nursery.fits (n + headerWords) then evacuate 0
      handOut n) := inferInstance
  refine Keeps.bind fun g => ?_
  infer_instance

instance {field : Nat} : GcM.Contained (writeField o field v) := by
  unfold writeField; infer_instance

end Generational

/-! ## Counting -/

namespace Counting

variable {P : Failure → Prop} {mode : CountMode} {o n : Nat} {v : Value}

instance : ReadM.Reports P (count mode o) := by unfold count; infer_instance
instance : ReadM.Reports P (blockSize mode o) := by unfold blockSize; infer_instance
instance : ReadM.Reports P (isQueued mode o) := by cases mode <;> (unfold isQueued; infer_instance)
instance {k : Int} : HeapM.Reports P (setCount mode o k) := by unfold setCount; infer_instance
instance {queued : Bool} : HeapM.Reports P (setQueued o queued) := by
  unfold setQueued; infer_instance
instance {k : Int} : HeapM.Reports P (adjust mode o k) := by unfold adjust; infer_instance

instance : HeapM.Reports P (increment mode v) := by
  unfold increment
  split <;> infer_instance

instance : HeapM.Reports P (decrement mode v) := by
  unfold decrement
  split <;> infer_instance

instance {table : ZeroCountTable} : GcM.Contained (GcM.fail table.full : GcM σ α) :=
  .fail ⟨rfl, nofun⟩

instance : GcM.Contained (queue o) := by unfold queue; infer_instance

instance {pending : List Nat} {field : Nat} : GcM.Contained (dropField pending field) := by
  refine Keeps.bind fun w => ?_
  split
  · infer_instance
  · refine Keeps.bind fun c => Keeps.bind fun k => ?_
    split
    · infer_instance
    · cases c.mode <;> infer_instance

instance : GcM.Contained (free o) := by unfold free; infer_instance

instance {pending : List Nat} {freed : Nat} : GcM.Contained (releaseAll n pending freed) := by
  induction n generalizing pending freed with
  | zero => cases pending <;> (unfold releaseAll; infer_instance)
  | succ n ih => cases pending <;> (unfold releaseAll; infer_instance)

instance : GcM.Contained (release o) := by unfold release; infer_instance

instance {i freed : Nat} {progress : Bool} : GcM.Contained (scanPass n i progress freed) := by
  induction n generalizing i progress freed with
  | zero => unfold scanPass; infer_instance
  | succ n ih =>
    refine Keeps.bind fun c => ?_
    split <;> infer_instance

instance {bound freed : Nat} : GcM.Contained (scanTable bound n freed) := by
  induction n generalizing freed with
  | zero => unfold scanTable; infer_instance
  | succ n ih =>
    refine Keeps.bind fun r => ?_
    infer_instance

instance {parked : List Value} {entries : List Nat} :
    HeapM.Reports P (keepParked mode parked entries) := by
  induction entries <;> (unfold keepParked; infer_instance)

instance : GcM.Contained scan := by
  refine Keeps.bind fun c =>
    Keeps.bind fun words => Keeps.bind fun _ => Keeps.bind fun freed => Keeps.bind fun _ => ?_
  infer_instance

instance : GcM.Contained (enqueue o) := by unfold enqueue; infer_instance

instance : GcM.Contained (letGo v) := by
  unfold letGo
  split
  · refine Keeps.bind fun c => Keeps.bind fun k => ?_
    cases c.mode <;> infer_instance
  · infer_instance

instance : GcM.Contained (unroot v) := by
  unfold unroot
  split <;> infer_instance

instance {size : Nat} : GcM.Contained (take? size) := by unfold take?; infer_instance

instance {size : Nat} : GcM.Contained (acquire size) := by
  refine Keeps.bind fun c => ?_
  have htake : GcM.Contained (do match ← take? size with
      | some found => return found
      | none => GcM.exhausted c.mode.strategy size) := by
    refine Keeps.bind fun found => ?_
    split <;> infer_instance
  have hretry : GcM.Contained (do match ← take? size with
      | some found => return found
      | none =>
        scan
        match ← take? size with
        | some found => return found
        | none => GcM.exhausted c.mode.strategy size) := by
    refine Keeps.bind fun found => ?_
    split <;> infer_instance
  split <;> infer_instance

instance {found : Nat × Nat} : GcM.Contained (finish mode found) := by
  refine Keeps.bind fun _ => Keeps.bind fun _ => ?_
  infer_instance

instance : GcM.Footed (allocate n) := by rw [allocate_eq]; infer_instance

instance : GcM.Contained collect := by
  refine Keeps.bind fun c => ?_
  split <;> infer_instance

instance {field : Nat} : GcM.Contained (writeField field v) := by unfold writeField; infer_instance

instance {slot : RootSlot} : GcM.Contained (writeRoot slot v) := by
  refine Keeps.bind fun c => ?_
  split <;> infer_instance

instance {field : Nat} : GcM.Contained (initField field v) := by unfold initField; infer_instance
instance : GcM.Contained (countCopied o) := by unfold countCopied; infer_instance

end Counting

/-! ## Collectors -/

namespace Collector

instance {P : Failure → Prop} {wrap : σ → Collector} {s : σ} {x : GcM σ α}
    [hx : Keeps Machine.footing P x] :
    Keeps Machine.footing P (within wrap s x) := by
  refine ⟨fun m => ?_⟩
  have h := hx.ends (m.withOwn s)
  unfold Ends at h ⊢
  unfold within
  cases hr : x (m.withOwn s) <;> (rw [hr] at h; exact h)

variable {n o field : Nat} {v : Value} {slot : RootSlot}

instance : GcM.Footed (allocate n) := by
  refine Keeps.bind fun c => ?_
  split <;> infer_instance

instance : GcM.Contained collect := by
  refine Keeps.bind fun c => ?_
  split <;> infer_instance

instance : GcM.Contained collectFull := by
  refine Keeps.bind fun c => ?_
  split <;> infer_instance

instance : GcM.Contained (writeField o field v) := by
  refine Keeps.bind fun c => ?_
  split <;> infer_instance

instance : GcM.Contained (writeRoot slot v) := by
  refine Keeps.bind fun c => ?_
  split <;> infer_instance

instance : GcM.Contained (initField field v) := by
  refine Keeps.bind fun c => ?_
  split <;> infer_instance

instance : GcM.Contained (noteCopy o) := by
  refine Keeps.bind fun c => ?_
  split <;> infer_instance

end Collector
end Reclaim
