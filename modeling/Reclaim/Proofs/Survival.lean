import Reclaim.Proofs.Counting.Letting
import Reclaim.Proofs.Generational.Barrier
import Reclaim.Proofs.Generational.Remembered
import Reclaim.Proofs.MarkSweep.Barren
import Reclaim.Proofs.Semispace.Operations
import Reclaim.Proofs.Sliding.Operations

/-!
# Handles in a session

A program need not root what only has to last until its next allocation. Under every strategy but
eager counting, a command that allocates nothing leaves the addresses it holds on to valid. There is
one exception: with deferred counting a store or a pop that finds the zero count table full scans
it, and what only the program knew of is reclaimed.

Results:
* `handles_survive`: after any session, every such command.
-/

namespace Reclaim

/-- What a command leaves to a program that holds on to the objects of `H`: no object is in a new
place, and those that the roots reached are there. If the machine is `calm`, or there was no
collection, all of them are there. -/
def Mutator.KeepsHeld (u u' : Mutator) (H : Nat → Prop) (vs : List Value) (calm : Prop) : Prop :=
  ∃ before after, u.objects = .ok before ∧ u'.objects = .ok after ∧ after.Sublist before ∧
    (∀ o, u.machine.Reachable o → Held after o) ∧
    (calm ∨ u'.machine.stats.collections = u.machine.stats.collections → after = before ∧ ∀ o, H o →
      u.held u' H vs o)

theorem Mutator.KeepsHeld.mono {u u' : Mutator} {H : Nat → Prop} {vs : List Value}
    {calm calm' : Prop} (h : u.KeepsHeld u' H vs calm) (hcalm : calm' → calm) :
    u.KeepsHeld u' H vs calm' := by
  obtain ⟨before, after, hb, ha, hsub, hreach, hsame⟩ := h
  exact ⟨before, after, hb, ha, hsub, hreach, fun hquiet => hsame (hquiet.imp_left hcalm)⟩

/-- The table of objects that may have died has room, if the collector has one. -/
def Machine.Calm (m : Machine Collector) : Prop := ∀ s, m.own = .counting s →
    s.zeroCounts.isFull = false

section Steady

variable {I : Machine Collector → (Nat → Prop) → Prop} {N : Machine Collector → Nat → Nat → Prop}
  {calm : Machine Collector → Prop}
  {u u' : Mutator} {H : Nat → Prop} {cmd : Command} {vs : List Value}

/-- A strategy that is gentle spares what a program holds on to. -/
theorem Steady.keepsHeld (hl : Laws Collector.operations I N)
    (hg : Gentle Collector.operations I calm) (hs : Steady I u H) (hcmd : ¬ cmd.MayCollect u)
    (hops : ∀ v ∈ cmd.operands, u.Allows H v) (hgives : cmd.Gives u vs u') :
    u.KeepsHeld u' H vs (calm u.machine) := by
  obtain ⟨S, hi, hH⟩ := hs.good
  have hrun := Command.run_lasting hl hg hi hs.clean hs.parked hcmd fun v hv =>
    (hops v hv).within hl hi hH
  have hlast : Lasting Collector.operations (calm u.machine) u.machine u'.machine := by
    rcases hgives with h | ⟨f, h, -⟩
    · exact hrun.ok h
    · exact hrun.error h
  obtain ⟨before, after, hb, ha, hsub, hreach, hsame⟩ := hlast.listed
  obtain ⟨bs, hbs, hmem⟩ := hl.objects hi
  cases hb.symm.trans hbs
  refine ⟨before, after, hb, ha, hsub, hreach, fun hquiet => ?_⟩
  have hcycles := hquiet.elim hlast.quiet id
  obtain rfl := hsame hcycles
  refine ⟨rfl, fun o ho => ⟨.inl ⟨hcycles, ho⟩, ?_⟩⟩
  obtain ⟨n, hn⟩ := hmem o (hH o ho)
  exact ⟨after, n, ha, hn⟩

end Steady

variable {c : Config} {u u' : Mutator} {H : Nat → Prop} {cmd : Command} {vs : List Value}

/-- Where nothing is ever held, nothing is disturbed. -/
theorem MarkSweep.barren_keepsHeld (hc : c.strategy = .markSweep) (h2 : c.heapWords < 2)
    (hs : Session c u H) (hops : ∀ v ∈ cmd.operands, u.Allows H v) (hgives : cmd.Gives u vs u')
    (calm : Prop) : u.KeepsHeld u' H vs calm := by
  obtain ⟨hb, -, hH⟩ := MarkSweep.session_barren hc h2 hs
  have hb' := (hb.gives hH hops hgives).1
  refine ⟨[], [], hb.objects, hb'.objects, .refl _, fun o ho => ?_,
    fun _ => ⟨rfl, fun o ho => (hH o ho).elim⟩⟩
  exact (ho.mem (MarkSweep.Barren.apart u).closed hb.within).elim

/-- With deferred counts, a table with room is not scanned. -/
theorem Counting.calm_of_tabled {S : Nat → Prop} {cap : Nat}
    (hi : Collector.Hosted .counting (Kept (Counting.Good .deferred cap)) u.machine S)
    (hroom : u.tabled.length < cap) : u.machine.Calm := by
  obtain ⟨s, hs, blocks, ⟨ts, -, hcap, -⟩, -⟩ := hi
  have hcap : s.zeroCounts.capacity = cap := hcap
  rw [Mutator.tabled, hs, Array.length_toList] at hroom
  intro t ht
  cases hs.symm.trans ht
  rw [ZeroCountTable.isFull, hcap]
  exact decide_eq_false (by omega)

/-- A command that allocates nothing, and is no collection, spares what a program holds on to,
unless it has to scan a full zero count table. -/
theorem handles_survive (hs : Session c u H) (hc : c.strategy ≠ .counting)
    (hcmd : ¬ cmd.MayCollect u) (hops : ∀ v ∈ cmd.operands, u.Allows H v)
    (hgives : cmd.Gives u vs u') :
    u.KeepsHeld u' H vs (c.strategy = .deferredCounting → u.tabled.length <
      c.zeroCountCapacity) := by
  cases hstrat : c.strategy with
  | copying =>
    have hl := Semispace.laws.hosted Semispace.hosts
    have hg : Gentle Collector.operations _ fun _ => True :=
      (Semispace.layout.gentle Semispace.laws).hosted Semispace.hosts fun _ h => h
    exact ((hs.steady hl fun _ => Semispace.start_kept hstrat).keepsHeld hl hg
      hcmd hops hgives).mono fun _ => trivial
  | markSweep =>
    by_cases h2 : 2 ≤ c.heapWords
    · have hl := MarkSweep.laws.hosted MarkSweep.hosts
      have hg : Gentle Collector.operations _ fun _ => True :=
        (MarkSweep.layout.gentle MarkSweep.laws).hosted MarkSweep.hosts fun _ h => h
      exact ((hs.steady hl fun _ => MarkSweep.start_kept hstrat h2).keepsHeld hl hg
        hcmd hops hgives).mono fun _ => trivial
    · exact MarkSweep.barren_keepsHeld hstrat (by omega) hs hops hgives _
  | markCompact =>
    have hl := Sliding.laws.hosted Sliding.hosts
    have hg : Gentle Collector.operations _ fun _ => True :=
      (Sliding.layout.gentle Sliding.laws).hosted Sliding.hosts fun _ h => h
    exact ((hs.steady hl fun _ => Sliding.start_kept hstrat).keepsHeld hl hg hcmd hops hgives).mono
      fun _ => trivial
  | generational =>
    have hl := Generational.laws.hosted Generational.hosts
    have hg : Gentle Collector.operations _ fun _ => True :=
      Generational.gentle.hosted Generational.hosts fun _ h => h
    exact ((hs.steady hl fun _ => Generational.start_intact hstrat).keepsHeld hl hg
      hcmd hops hgives).mono fun _ => trivial
  | counting => exact absurd hstrat hc
  | deferredCounting =>
    by_cases h2 : 2 ≤ c.heapWords
    · have hl := (Counting.laws .deferred c.zeroCountCapacity).hosted Counting.hosts
      have hg : Gentle Collector.operations _ Machine.Calm :=
        (Counting.gentle c.zeroCountCapacity).hosted Counting.hosts fun h hcalm => hcalm _ h
      have hst := hs.steady hl fun _ =>
        Counting.start_kept (show c.strategy = CountMode.deferred.strategy from hstrat) h2
      obtain ⟨S, hi, -⟩ := hst.good
      exact (hst.keepsHeld hl hg hcmd hops hgives).mono fun hroom =>
        Counting.calm_of_tabled hi (hroom rfl)
    · have hl := Counting.barren_laws.hosted Counting.hosts
      have hg : Gentle Collector.operations _ fun _ => True :=
        Counting.barren_gentle.hosted Counting.hosts fun _ h => h
      have hmode : c.strategy = CountMode.deferred.strategy := hstrat
      have hst := hs.steady hl fun _ hu => ⟨_, Counting.start_barren hmode (by omega) hu⟩
      exact (hst.keepsHeld hl hg hcmd hops hgives).mono fun _ => trivial

/-! ## A table with room for one object -/

/-- A small heap with deferred counts, and a table of this size. -/
def deferring (tableSize : Nat) : Config :=
  { strategy := .deferredCounting, heapSize := 512, stackCapacity := 8, globalTableSize := 1,
    zeroCountCapacity := tableSize }

/-- One pair is on the stack and was scanned, another one was made after that. -/
def pairPending (tableSize : Nat) : Mutator :=
  (Command.cons (.int 3) (.int 4)).after (Command.collect.after ((Command.push (.ofRef 3)).after
    ((Command.cons (.int 1) (.int 2)).after (Mutator.ofConfig (deferring tableSize)))))

/-- The new pair is in the table, and only the program knows of it. -/
theorem session_pairPending {tableSize : Nat} (h : tableSize = 1 ∨ tableSize = 2) :
    ∃ H, Session (deferring tableSize) (pairPending tableSize) H ∧ H 9 := by
  let u0 := Mutator.ofConfig (deferring tableSize)
  let u1 := (Command.cons (.int 1) (.int 2)).after u0
  let u2 := (Command.push (.ofRef 3)).after u1
  let u3 := Command.collect.after u2
  have hpair : ∀ (u : Mutator) H {a b : Value}, a.isRef = false →
      b.isRef = false → ∀ v ∈ [a, b], u.Allows H v := by
    intro u H a b ha hb
    simp only [List.mem_cons, List.not_mem_nil, or_false, forall_eq_or_imp, forall_eq]
    exact ⟨Mutator.allows_immediate ha, Mutator.allows_immediate hb⟩
  have h0 : Session (deferring tableSize) u0 _ :=
    .start ⟨Text.Digest.digest, by rcases h with rfl | rfl <;> rfl⟩
  have h1 := h0.next (.cons (.int 1) (.int 2)) [.ofRef 3]
    (by rcases h with rfl | rfl <;> decide +kernel)
    (by rcases h with rfl | rfl <;> decide +kernel) (hpair _ _ rfl rfl)
  have h2 := h1.next (.push (.ofRef 3)) [] (by rcases h with rfl | rfl <;> decide +kernel)
    (by rcases h with rfl | rfl <;> decide +kernel) (by
      simp only [Command.operands, List.mem_singleton, forall_eq]
      exact Mutator.allows_returned (by decide) (by decide)
        (show u1.objects.toOption = some [(3, 6)] by
          rcases h with rfl | rfl <;> decide +kernel) (.head _))
  have h3 := h2.next .collect [] (by rcases h with rfl | rfl <;> decide +kernel)
    (by rcases h with rfl | rfl <;> decide +kernel)
    (by simp [Command.operands])
  have h4 := h3.next (.cons (.int 3) (.int 4)) [.ofRef 9]
    (by rcases h with rfl | rfl <;> decide +kernel)
    (by rcases h with rfl | rfl <;> decide +kernel) (hpair _ _ rfl rfl)
  have hlisted : (pairPending tableSize).objects = .ok [(3, 6), (9, 6)] :=
    eq_ok_of_toOption (by rcases h with rfl | rfl <;> decide +kernel)
  exact ⟨_, h4, .inr ⟨_, List.mem_singleton.mpr rfl, Value.ref?_ofRef (by decide) (by decide)⟩, _,
    6, hlisted, by simp⟩

/-- A pop that lets go of the first pair leaves both where they are, while the table has room. -/
theorem pop_spares_pair : ∃ H, Session (deferring 2) (pairPending 2) H ∧ H 9 ∧
    (pairPending 2).objects = .ok [(3, 6), (9, 6)] ∧ (Command.pop.after (pairPending 2)).objects =
    .ok [(3, 6), (9, 6)] ∧
    (pairPending 2).held (Command.pop.after (pairPending 2)) H [.ofRef 3] 9 := by
  obtain ⟨H, hs, hH⟩ := session_pairPending (.inr rfl)
  have hgives : Command.pop.Gives (pairPending 2) [.ofRef 3] (Command.pop.after (pairPending 2)) :=
    Command.gives_of_values (by decide +kernel)
  have hcmd : ¬ Command.pop.MayCollect (pairPending 2) := fun h => h
  obtain ⟨before, after, hb, ha, -, -, hsame⟩ := handles_survive hs (by decide) hcmd
    (by simp [Command.operands]) hgives
  obtain ⟨rfl, hheld⟩ := hsame (.inl fun _ => by decide +kernel)
  have hlisted : (pairPending 2).objects = .ok [(3, 6), (9, 6)] :=
    eq_ok_of_toOption (by decide +kernel)
  cases hb.symm.trans hlisted
  exact ⟨H, hs, hH, hlisted, ha, hheld 9 hH⟩

/-- The same pop with a table that is full reclaims the second pair, which the program still holds
on to. -/
theorem pop_reclaims_pair : ∃ H, Session (deferring 1) (pairPending 1) H ∧ H 9 ∧
    (deferring 1).strategy ≠ .counting ∧
    ¬ Command.pop.MayCollect (pairPending 1) ∧ Command.pop.Gives (pairPending 1) [.ofRef 3]
    (Command.pop.after (pairPending 1)) ∧
    (Command.pop.after (pairPending 1)).poisoned = false ∧ (pairPending 1).objects =
    .ok [(3, 6), (9, 6)] ∧
    (Command.pop.after (pairPending 1)).objects = .ok [(3, 6)] := by
  obtain ⟨H, hs, hH⟩ := session_pairPending (.inl rfl)
  refine ⟨H, hs, hH, by decide, fun h => h, Command.gives_of_values
    (by decide +kernel), by decide +kernel, ?_, ?_⟩
  · exact eq_ok_of_toOption (by decide +kernel)
  · exact eq_ok_of_toOption (by decide +kernel)

end Reclaim
