import Reclaim.Proofs.Footing
import Reclaim.Proofs.Lawful
import Reclaim.Proofs.Traps

/-!
# Requests that are too large

Every strategy looks first at how large a request is. A block that is longer than the region that
new objects come from is refused before anything else is done; a block that is not is never refused
for its size, whatever comes of the request. The failure tells both lengths in bytes. The limit is
that of an arena that is there, so it can be told. The request is whatever the program asked for,
and with its header it may take `2^64` bytes or more: then the product is not a word, and there is a
trap before there is a failure.

Results:
* `Collector.allocate_weighs`: a request is refused for its size, or traps, if and only if it is
  larger than the limit.
* `session_refusals`: throughout a session, the limit is that of the region that new objects come
  from.
* `largest_request_traps`: a request that is too large to be told so.
-/

namespace Reclaim

variable {σ : Type}

/-! ## Weighing a request -/

/-- A request for `size` words is refused at once, and leaves everything as it was, if there are
`limit` words at most; otherwise it is not refused for its size. There is no failure if no word
counts its bytes, but a trap. -/
structure Weighs (x : GcM σ Nat) (m : Machine σ) (limit size : Nat) : Prop where
  refused : limit < size → size * wordBytes < wordValues →
    x m = .error (.failed (.objectTooLarge (byteCount size) (byteCount limit))) m
  overflows : limit < size → wordValues ≤ size * wordBytes → x m = .error .trap m
  heard : size ≤ limit → ∀ requested most m',
    x m ≠ .error (.failed (.objectTooLarge requested most)) m'

theorem Weighs.congr {x y : GcM σ Nat} {m : Machine σ} {limit size : Nat} (he : x m = y m)
    (hy : Weighs y m limit size) :
    Weighs x m limit size where
  refused hlim hcount := he.trans (hy.refused hlim hcount)
  overflows hlim hover := he.trans (hy.overflows hlim hover)
  heard hle requested most m' herr := hy.heard hle requested most m' (he.symm.trans herr)

/-- What is done after a request was weighed does not refuse it. -/
theorem weighs_first {rest : GcM σ Nat} [hrest : GcM.Contained rest] {m : Machine σ}
    {limit size : Nat} :
    Weighs (do
      if limit < size then GcM.tooLarge size limit
      rest) m limit size where
  refused hlim hcount := by
    simp only [hlim, if_true]
    exact bind_error (GcM.run_tooLarge hcount hlim)
  overflows hlim hover := by
    simp only [hlim, if_true]
    exact bind_error (GcM.tooLarge_trap hover)
  heard hle requested most m' herr := by
    simp only [Nat.not_lt.mpr hle, if_false] at herr
    obtain ⟨-, hf⟩ := (hrest.ends m).error herr
    exact (hf _ rfl).2 requested most rfl

namespace Semispace

theorem allocate_weighs (m : Machine Semispace) (words : Nat) :
    Weighs (allocate words) m m.own.spare.length (words + headerWords) := by
  rw [allocate_eq]
  exact .congr (bind_ok GcM.run_own) weighs_first

end Semispace

namespace MarkSweep

theorem allocate_weighs (m : Machine MarkSweep) (words : Nat) :
    Weighs (allocate words) m m.own.region.length (blockWords words) := by
  rw [allocate_eq]
  exact .congr (bind_ok GcM.run_own) weighs_first

end MarkSweep

namespace Sliding

theorem allocate_weighs (m : Machine Sliding) (words : Nat) :
    Weighs (allocate words) m m.own.space.region.length (words + headerWords) := by
  rw [allocate_eq]
  exact .congr (bind_ok GcM.run_own) weighs_first

end Sliding

namespace Generational

theorem allocate_weighs (m : Machine Generational) (words : Nat) :
    Weighs (allocate words) m m.own.nursery.region.length (words + headerWords) := by
  rw [allocate_eq]
  exact .congr (bind_ok GcM.run_own) weighs_first

end Generational

namespace Counting

theorem allocate_weighs (m : Machine Counting) (words : Nat) :
    Weighs (allocate words) m m.own.region.length (words + m.own.mode.headerWords) := by
  rw [allocate_eq]
  exact .congr (bind_ok GcM.run_own) weighs_first

end Counting

namespace Collector

/-- The words that a request is held against. -/
def limit : Collector → Nat
  | semispace s => s.spare.length
  | markSweep s => s.region.length
  | sliding s => s.space.region.length
  | generational g => g.nursery.region.length
  | counting c => c.region.length

theorem weighs_within {wrap : σ → Collector} {x : GcM σ Nat} {m : Machine Collector} {s : σ}
    {limit size : Nat} (hs : m.own = wrap s) (hx : Weighs x (m.withOwn s) limit size) :
    Weighs (within wrap s x) m limit size where
  refused hlim hcount := run_within_error hs (hx.refused hlim hcount)
  overflows hlim hover := run_within_error hs (hx.overflows hlim hover)
  heard hle requested most m' herr := by
    rw [within] at herr
    cases hr : x (m.withOwn s) with
    | ok a m₁ =>
      rw [hr] at herr
      cases herr
    | error e m₁ =>
      rw [hr] at herr
      cases herr
      exact hx.heard hle _ _ _ hr

/-- Whatever the strategy, a request is held against its limit, the header of the new object
included. -/
theorem allocate_weighs (m : Machine Collector) {words : Nat} (hpos : 1 ≤ words) :
    Weighs (allocate words) m m.own.limit (words + m.own.headerWords) := by
  unfold allocate
  refine .congr (bind_ok GcM.run_own) ?_
  cases hs : m.own with
  | semispace s => exact weighs_within hs (Semispace.allocate_weighs (m.withOwn s) words)
  | markSweep s =>
    have hw := MarkSweep.allocate_weighs (m.withOwn s) words
    rw [MarkSweep.blockWords_eq hpos] at hw
    exact weighs_within hs hw
  | sliding s => exact weighs_within hs (Sliding.allocate_weighs (m.withOwn s) words)
  | generational s => exact weighs_within hs (Generational.allocate_weighs (m.withOwn s) words)
  | counting s => exact weighs_within hs (Counting.allocate_weighs (m.withOwn s) words)

end Collector

/-! ## The limit -/

/-- The words of the region that new objects come from: a copying heap's half in use, a nursery's
half in use, and the whole arena otherwise. -/
def Mutator.allotted (u : Mutator) : Nat :=
  match u.machine.own with
  | .semispace s => s.space.region.length
  | .generational g => g.nursery.region.length
  | _ => u.machine.heap.size

/-- The limit is the length of that region, which lies in an arena. -/
structure Mutator.Limited (u : Mutator) : Prop where
  limit : u.machine.own.limit = u.allotted
  inside : u.allotted ≤ u.machine.heap.size
  small : u.machine.heap.size < tableLimit

section Session

variable {c : Config} {u : Mutator} {H : Nat → Prop} {σ : Type} {wrap : σ → Collector}
  {ops : Operations σ}
  {I : Machine σ → (Nat → Prop) → Prop} {N : Machine σ → Nat → Nat → Prop}

/-- A strategy whose invariant gives the limit. -/
theorem Session.limited_of_laws (hs : Session c u H) (hl : Laws ops I N)
    (hh : Collector.Hosts wrap ops) (hstart : c.Starts (Collector.Hosted wrap I))
    (hlimit : ∀ {s S}, u.machine.own = wrap s → I (u.machine.withOwn s) S → u.machine.own.limit =
      u.allotted ∧ u.allotted ≤ u.machine.heap.size) :
    u.Limited := by
  obtain ⟨S, hi, -⟩ := (hs.steady (hl.hosted hh) hstart).good
  obtain ⟨s, hown, hI⟩ := id hi
  obtain ⟨heq, hle⟩ := hlimit hown hI
  exact ⟨heq, hle, (hl.hosted hh).small hi⟩

/-- The region is the whole arena. -/
theorem limited_of_whole {r : Region} (hlimit : u.machine.own.limit = r.length)
    (hallotted : u.allotted = u.machine.heap.size) (hregion : r = u.machine.heap.region) :
    u.machine.own.limit = u.allotted ∧ u.allotted ≤ u.machine.heap.size := by
  rw [hlimit, hallotted, hregion, Arena.length_region]
  exact ⟨rfl, Nat.le_refl _⟩

theorem Session.counting_limited (mode : CountMode) (hc : c.strategy = mode.strategy)
    (hs : Session c u H) : u.Limited := by
  by_cases h2 : 2 ≤ c.heapWords
  · refine hs.limited_of_laws (Counting.laws mode c.zeroCountCapacity) Counting.hosts
      (fun _ => Counting.start_kept hc h2) ?_
    rintro s S hown ⟨blocks, ⟨ts, -, -, -, hg⟩, -⟩
    exact limited_of_whole (r := s.region) (by rw [hown]; rfl)
      (by rw [Mutator.allotted, hown]) hg.dying.stock.region
  · refine hs.limited_of_laws Counting.barren_laws Counting.hosts
      (fun _ hu => ⟨_, Counting.start_barren hc (by omega) hu⟩) ?_
    rintro s S hown ⟨hb, -⟩
    exact limited_of_whole (r := s.region) (by rw [hown]; rfl)
      (by rw [Mutator.allotted, hown]) hb.region

theorem MarkSweep.Bare.limited {s : MarkSweep} (hb : MarkSweep.Bare u s) : u.Limited := by
  have hsmall := hb.small
  obtain ⟨heq, hle⟩ := limited_of_whole (u := u) (r := s.region) (by rw [hb.own]; rfl)
    (by rw [Mutator.allotted, hb.own]) hb.region
  exact ⟨heq, hle, by unfold tableLimit; omega⟩

/-- The limit of a session is that of the region that new objects come from. -/
theorem Session.limited (hs : Session c u H) : u.Limited := by
  cases hc : c.strategy with
  | copying =>
    refine hs.limited_of_laws Semispace.laws Semispace.hosts (fun _ => Semispace.start_kept hc) ?_
    rintro s S hown ⟨blocks, hg, -⟩
    have hin := hg.inside
    have heq := hg.length_eq
    simp only [Mutator.allotted, Collector.limit, hown, Region.length, Machine.withOwn_own,
      Machine.withOwn_heap] at *
    omega
  | markSweep =>
    by_cases h2 : 2 ≤ c.heapWords
    · refine hs.limited_of_laws MarkSweep.laws MarkSweep.hosts
        (fun _ => MarkSweep.start_kept hc h2) ?_
      rintro s S hown ⟨blocks, ⟨ts, -, hg⟩, -⟩
      exact limited_of_whole (r := s.region) (by rw [hown]; rfl)
        (by rw [Mutator.allotted, hown]) hg.region
    · obtain ⟨⟨s, hb⟩, -⟩ := MarkSweep.session_barren hc (by omega) hs
      exact hb.limited
  | markCompact =>
    refine hs.limited_of_laws Sliding.laws Sliding.hosts (fun _ => Sliding.start_kept hc) ?_
    rintro s S hown ⟨blocks, hg, -⟩
    exact limited_of_whole (r := s.space.region) (by rw [hown]; rfl)
      (by rw [Mutator.allotted, hown]) hg.region
  | generational =>
    refine hs.limited_of_laws Generational.laws Generational.hosts
      (fun _ => Generational.start_intact hc) ?_
    rintro s S hown ⟨young, old, hg⟩
    have hbelow := hg.inv.spaces.below
    have hten := hg.inv.old_stacked.le
    have htop := hg.inv.spaces.tenured_top
    have hin := hg.inv.spaces.tenured
    simp only [Mutator.allotted, Collector.limit, hown, Region.length, Machine.withOwn_own,
      Machine.withOwn_heap, true_and] at *
    omega
  | counting => exact hs.counting_limited .eager hc
  | deferredCounting => exact hs.counting_limited .deferred hc

end Session

/-! ## Refusals -/

/-- The words that a request for `bytes` bytes needs: those of the object, one at least, and of its
header. -/
def Mutator.needed (u : Mutator) (bytes : Nat) : Nat :=
  max (wordsFor bytes) 1 + u.machine.own.headerWords

namespace MutatorM

variable {α : Type} {u : Mutator} {bytes : Nat}

/-- A failure of an operation is that of the collector. -/
theorem operate_blames {x : GcM Collector α} (hu : u.poisoned = false) :
    Ends (operate x) u (fun _ _ => True) fun e _ => ∃ m', x u.machine = .error e m' := by
  refine .step (check_run hu) ?_
  cases hx : x u.machine with
  | ok a m => exact .of_eq (guarded_run hx) trivial
  | error e m =>
    cases e with
    | failed f => exact .of_error (by rw [guarded, gc_lift_error hx]) ⟨m, rfl⟩
    | trap | endless => exact .of_error (by rw [guarded, gc_lift_error hx]) ⟨m, rfl⟩

/-- A request that is too large poisons the heap, and changes nothing else. -/
theorem allocate_refused (hu : u.poisoned = false) (hlim : u.machine.own.limit < u.needed bytes)
    (hcount : u.needed bytes * wordBytes < wordValues) :
    allocate bytes u = .error
    (.failed (.objectTooLarge (byteCount (u.needed bytes)) (byteCount u.machine.own.limit)))
      { u with poisoned := true } := by
  have hstop := (Collector.allocate_weighs u.machine
    (Nat.le_max_right (wordsFor bytes) 1)).refused hlim hcount
  rw [allocate, allocateWords, operate]
  refine bind_error ((bind_ok (check_run hu)).trans ?_)
  rw [guarded, gc_lift_error hstop]
  simp [Failure.isFatal]
  rfl

/-- A request that is too large to be told so changes nothing at all. -/
theorem allocate_traps (hu : u.poisoned = false) (hlim : u.machine.own.limit < u.needed bytes)
    (hover : wordValues ≤ u.needed bytes * wordBytes) : allocate bytes u = .error .trap u := by
  have hstop := (Collector.allocate_weighs u.machine
    (Nat.le_max_right (wordsFor bytes) 1)).overflows hlim hover
  exact bind_error (operate_error hu hstop (by simp))

/-- No other request is refused for its size. -/
theorem allocate_heard (hu : u.poisoned = false) (hle : u.needed bytes ≤ u.machine.own.limit)
    {requested most : UInt64} {u' : Mutator} :
    allocate bytes u ≠ .error (.failed (.objectTooLarge requested most)) u' := by
  intro herr
  have hrun : Ends (allocate bytes) u (fun _ _ => True) fun e _ =>
      ∃ m', Collector.allocate (max (wordsFor bytes) 1) u.machine = .error e m' :=
    (operate_blames hu).bind fun _ _ _ => .of_eq rfl trivial
  obtain ⟨m', hm⟩ := hrun.error herr
  exact (Collector.allocate_weighs u.machine
    (Nat.le_max_right (wordsFor bytes) 1)).heard hle _ _ _ hm

end MutatorM

/-- All requests but the last few can be counted in bytes. -/
theorem Mutator.countable_iff (u : Mutator) (bytes : Nat) :
    u.needed bytes * wordBytes < wordValues ↔ bytes + (u.machine.own.headerWords + 1) * wordBytes ≤
    wordValues := by
  have hheader := u.machine.own.headerWords_le
  simp only [needed, wordsFor, wordBytes, wordValues]
  omega

/-- Throughout a session, a request is refused for its size if and only if it needs more words,
those of the header included, than there are in the region that new objects come from, and a word
counts its bytes. Nothing changes then but that the heap is poisoned, and what is told of the
request and of the limit is true. If no word counts its bytes, which is so for the last few requests
only, there is a trap, and nothing changes. The words can always be counted. -/
theorem session_refusals {c : Config} {u : Mutator} {H : Nat → Prop} (hs : Session c u H)
    (bytes : Nat) :
    ((∃ requested most u', MutatorM.allocate bytes u = .error
      (.failed (.objectTooLarge requested most)) u') ↔
      u.allotted < u.needed bytes ∧ u.needed bytes * wordBytes < wordValues) ∧
    (u.allotted < u.needed bytes → u.needed bytes * wordBytes < wordValues →
      MutatorM.allocate bytes u = .error
        (.failed (.objectTooLarge (byteCount (u.needed bytes)) (byteCount u.allotted)))
        { u with poisoned := true } ∧
      (byteCount (u.needed bytes)).toNat = u.needed bytes * wordBytes ∧
      (byteCount u.allotted).toNat = u.allotted * wordBytes ∧ byteCount u.allotted < byteCount
        (u.needed bytes)) ∧
    (wordValues ≤ u.needed bytes * wordBytes →
      u.allotted < u.needed bytes ∧ MutatorM.allocate bytes u = .error .trap u) ∧
    (u.needed bytes * wordBytes < wordValues ↔ bytes + (u.machine.own.headerWords + 1) *
      wordBytes ≤ wordValues) ∧
    (bytes < wordValues → u.needed bytes < wordValues) := by
  have hclean := hs.clean
  have hlim := hs.limited
  have hsize : u.allotted < tableLimit := hlim.inside.trans_lt hlim.small
  have hbytes : u.allotted * wordBytes < wordValues := by
    unfold tableLimit at hsize
    simp only [wordBytes, wordValues]
    omega
  have hproduct : ∀ {n : Nat}, n * wordBytes < wordValues →
      (byteCount n).toNat = n * wordBytes := fun hn =>
    (byteCount_toNat _).trans (Nat.mod_eq_of_lt hn)
  have hrefused : u.allotted < u.needed bytes → u.needed bytes * wordBytes < wordValues →
    MutatorM.allocate bytes u
      = .error (.failed (.objectTooLarge (byteCount (u.needed bytes)) (byteCount u.allotted)))
        { u with poisoned := true } := by
    intro hlarge hcount
    rw [← hlim.limit] at hlarge ⊢
    exact MutatorM.allocate_refused hclean hlarge hcount
  have htrap : wordValues ≤ u.needed bytes * wordBytes →
      u.allotted < u.needed bytes ∧ MutatorM.allocate bytes u = .error .trap u := by
    intro hover
    have hlarge : u.allotted < u.needed bytes :=
      Nat.lt_of_mul_lt_mul_right (a := wordBytes) (hbytes.trans_le hover)
    exact ⟨hlarge, MutatorM.allocate_traps hclean (hlim.limit ▸ hlarge) hover⟩
  refine ⟨⟨?_, fun h => ⟨_, _, _, hrefused h.1 h.2⟩⟩,
    fun hlarge hcount => ⟨hrefused hlarge hcount, ?_, ?_, ?_⟩, htrap,
    u.countable_iff bytes, fun hword => ?_⟩
  · rintro ⟨requested, most, u', hrun⟩
    refine ⟨?_, ?_⟩
    · by_contra hsmall
      exact MutatorM.allocate_heard hclean (hlim.limit ▸ Nat.not_lt.mp hsmall) hrun
    · by_contra hover
      rw [(htrap (Nat.not_lt.mp hover)).2] at hrun
      cases hrun
  · exact hproduct hcount
  · exact hproduct hbytes
  · rw [UInt64.lt_iff_toNat_lt, hproduct hbytes, hproduct hcount]
    exact Nat.mul_lt_mul_of_pos_right hlarge (by decide)
  · have hheader := u.machine.own.headerWords_le
    simp only [Mutator.needed, wordsFor, wordBytes, wordValues] at hword ⊢
    omega

/-- A copying heap with four words in each half. -/
def fourWordHalves : Config :=
  { strategy := .copying, heapSize := 64, stackCapacity := 4, globalTableSize := 1 }

/-- The heap with an object of one word. -/
def fourWordHalvesUsed : Mutator := (Command.allocate 8).after (.ofConfig fourWordHalves)

theorem session_fourWordHalvesUsed : ∃ H, Session fourWordHalves fourWordHalvesUsed H :=
  ⟨_, (Session.start (c := fourWordHalves) (u := .ofConfig fourWordHalves) ⟨_, rfl⟩).plain
    (.allocate 8) [.ofRef 2] (by decide +kernel) (by decide +kernel)
    (by decide)⟩

/-- Sixteen bytes take all of a half, and seventeen are too many. -/
theorem fourWordHalves_refuse : (∃ H, Session fourWordHalves fourWordHalvesUsed H) ∧
    fourWordHalvesUsed.allotted = 4 ∧
    (¬ ∃ requested most u', MutatorM.allocate 16 fourWordHalvesUsed = .error
      (.failed (.objectTooLarge requested most)) u') ∧
    MutatorM.allocate 17 fourWordHalvesUsed = .error (.failed (.objectTooLarge 40 32))
    { fourWordHalvesUsed with poisoned := true } := by
  obtain ⟨H, hs⟩ := session_fourWordHalvesUsed
  have hhalf : fourWordHalvesUsed.allotted = 4 := by decide +kernel
  have hfits : fourWordHalvesUsed.needed 16 = 4 := by decide +kernel
  have hlarge : fourWordHalvesUsed.needed 17 = 5 := by decide +kernel
  have hlimit : byteCount 4 = 32 := by decide
  have hrequest : byteCount 5 = 40 := by decide
  obtain ⟨hheard, -⟩ := session_refusals hs 16
  obtain ⟨-, hrefused, -⟩ := session_refusals hs 17
  rw [hhalf, hfits] at hheard
  rw [hhalf, hlarge, hlimit, hrequest] at hrefused
  exact ⟨⟨H, hs⟩, hhalf, fun h => absurd (hheard.mp h).1 (by decide),
    (hrefused (by decide) (by decide)).1⟩

/-- A request for as many bytes as one word can count takes sixteen bytes more than that with its
header. It is larger than the region, but it is not refused: there is a trap. -/
theorem largest_request_traps : Session fourWordHalves (.ofConfig fourWordHalves) (fun _ => False) ∧
    18446744073709551615 < wordValues ∧ (Mutator.ofConfig fourWordHalves).allotted = 4 ∧
    (Mutator.ofConfig fourWordHalves).needed 18446744073709551615 * wordBytes =
    18446744073709551632 ∧
    MutatorM.allocate 18446744073709551615 (.ofConfig fourWordHalves) = .error .trap
    (.ofConfig fourWordHalves) := by
  have hs := Session.start (c := fourWordHalves) (u := .ofConfig fourWordHalves) ⟨_, rfl⟩
  have hhalf : (Mutator.ofConfig fourWordHalves).allotted = 4 := by decide +kernel
  have hneeded : (Mutator.ofConfig fourWordHalves).needed 18446744073709551615 =
    2305843009213693954 := by decide +kernel
  have hlarge : (Mutator.ofConfig fourWordHalves).machine.own.limit
      < (Mutator.ofConfig fourWordHalves).needed 18446744073709551615 := by
    rw [hs.limited.limit, hhalf, hneeded]
    decide
  have hover : wordValues ≤ (Mutator.ofConfig fourWordHalves).needed 18446744073709551615 *
      wordBytes := by
    rw [hneeded]
    decide
  exact ⟨hs, by decide, hhalf, by rw [hneeded]; decide,
    MutatorM.allocate_traps hs.clean hlarge hover⟩

end Reclaim
