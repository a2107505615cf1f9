import Reclaim.Proofs.Lawful
import Reclaim.Proofs.Places
import Reclaim.Proofs.Poison

/-!
# Texts

A text is packed into the words behind its object word, and read back from there. A string or a
symbol that a program makes is read as the text that it was made of, by way of any value that the
program can tell to be the same one: it may be in a root, in a field or behind a name, and have been
moved by any number of collections (`Mutator.Becomes`).

Results:
* `Arena.text_written`: a text in the arena.
* `Mutator.Tells.step`, `Mutator.Tells.place`: a text and the place that holds it, after one
  command.
* `session_texts`: after any number of commands.
-/

namespace Reclaim

/-! ## In the arena -/

/-- The words of the object at `o` hold a text of these bytes, and no other word has changed. -/
structure Arena.Written (t : Tag) (bytes : List UInt8) (o : Nat) (h h' : Arena) : Prop where
  size : h'.size = h.size
  tag : tagOf o h' = .ok t
  payload : payloadWords o h' = .ok (textWords bytes.length)
  text : readText o h' = .ok bytes
  /-- All that is in the last word behind the bytes are zeros. -/
  padding : ∃ ws, loadRun (o + 1) (wordsFor bytes.length) h' = .ok ws ∧
    ∃ n, n < wordBytes ∧ Text.unpack ws = bytes ++ List.replicate n 0
  outside : ∀ a, a < o ∨ o + textWords bytes.length ≤ a → load a h' = load a h

theorem load_congr {h h' : Arena} {a : Nat} (hs : h'.size = h.size) (hw : h'.word a = h.word a) :
    load a h' = load a h := by
  by_cases ha : a < h.size
  · rw [load_run ha, load_run (hs ▸ ha), hw]
  · have hout : ∀ g : Arena, g.size ≤ a → load a g = .error .trap := fun g hg => by
      rw [load, Array.getElem?_eq_none hg]
    rw [hout h (by omega), hout h' (by omega)]

/-- A text that is written can be read. -/
theorem Arena.text_written {t : Tag} (ht : t = .string ∨ t = .symbol) {bytes : List UInt8}
    (hlen : bytes.length < 0x100000000000000) {h : Arena} {o : Nat}
    (hroom : o + textWords bytes.length ≤ h.size) :
    ∃ h', (do store o (objectWord t (UInt64.ofNat bytes.length)); writeText o bytes : HeapM Unit)
    h = .ok () h' ∧
      Arena.Written t bytes o h h' := by
  let ws := objectWord t (UInt64.ofNat bytes.length) :: Text.pack bytes
  have hwords : textWords bytes.length = ws.length := by
    rw [List.length_cons, Text.length_pack, textWords, Nat.add_comm]
  rw [hwords] at hroom
  have hpos : 0 < ws.length := Nat.succ_pos _
  have hfirst : store o (objectWord t (UInt64.ofNat bytes.length)) h = .ok () _ :=
    store_run (by omega)
  have hrest : writeText o bytes (h.put o (objectWord t (UInt64.ofNat bytes.length))) = .ok ()
      (h.puts o ws) :=
    storeRun_run (by simp [ws] at hroom ⊢; omega)
  obtain ⟨htag, hpay, -⟩ := (MutatorM.text_constructs ht bytes).words hroom
  have hholds : (h.puts o ws).Holds o ws := fun i hi => by
    have hi' : i < ws.length := Nat.lt_of_lt_of_le hi hpay
    rw [List.getElem?_eq_getElem hi', Arena.word_puts hroom hi']
  have hknown : (h.puts o ws).tag o ≠ none := by
    rw [htag]
    exact Option.some_ne_none t
  obtain ⟨-, hpayload, hpacked, hbytes⟩ := hholds.text ht hknown hlen
  have hcount : textWords ((h.puts o ws).word o >>> 8).toNat = ws.length := by
    have htext : (h.puts o ws).tag o = some .string ∨ (h.puts o ws).tag o = some .symbol := by
      rw [htag]
      exact ht.imp (congrArg some) (congrArg some)
    rw [← Arena.payload_of_text htext, hpayload, hwords]
  refine ⟨h.puts o ws, (bind_ok hfirst).trans hrest, ?_⟩
  exact {
    size := Arena.size_puts h o ws
    tag := tagOf_run (by rw [Arena.size_puts]; omega) htag
    payload := by rw [payloadWords_run (by rw [Arena.size_puts]; omega) hknown, hpayload]
    text := by rw [readText_run (by rw [Arena.size_puts, hcount]; exact hroom), hbytes]
    padding := by
      refine ⟨Text.pack bytes, ?_, wordsFor bytes.length * wordBytes - bytes.length, ?_,
        Text.unpack_pack bytes⟩
      · rw [loadRun_run (by rw [Arena.size_puts]; simp only [textWords] at hwords; omega), hpacked]
      · simp only [wordsFor, wordBytes]
        omega
    outside := fun a ha => load_congr (Arena.size_puts h o ws)
      (Arena.word_puts_outside (hwords ▸ ha)) }

/-! ## In a program -/

/-- What has become of the value `v` in a command, for a program that holds on to the objects of
`H`. -/
inductive Mutator.Becomes (u : Mutator) (H : Nat → Prop) (cmd : Command) (vs : List Value)
    (u' : Mutator) (v : Value) : Value → Prop
  /-- Nothing moves if there is no allocation and no collection. -/
  | stays : ¬ cmd.MayCollect u → u'.Allows (u.held u' H vs) v → u.Becomes H cmd vs u' v v
  /-- The place that held it was not written, and is looked up again. -/
  | rooted {p : Place} {v' : Value} : cmd.Misses u p → u.at? p = some v → u'.at? p = some v' →
      u.Becomes H cmd vs u' v v'
  /-- The command itself has put it somewhere. -/
  | lodged {v' : Value} : cmd.run u = .ok vs u' → cmd.Lodges u u' v v' vs →
      u'.Allows (u.held u' H vs) v' → u.Becomes H cmd vs u' v v'

/-- What has become of the value `v` in any number of commands. -/
inductive Lineage (u : Mutator) (H : Nat → Prop) (v : Value) : Mutator → (Nat → Prop) → Value → Prop
  | refl : Lineage u H v u H v
  | step {u₁ u₂ : Mutator} {H₁ : Nat → Prop} {v₁ v₂ : Value} {cmd : Command} {vs : List Value} :
      Lineage u H v u₁ H₁ v₁ → (∀ w ∈ cmd.operands, u₁.Allows H₁ w) → cmd.Gives u₁ vs u₂ →
        u₂.poisoned = false →
      u₁.Becomes H₁ cmd vs u₂ v₁ v₂ → Lineage u H v u₂ (u₁.held u₂ H₁ vs) v₂

variable {I : Machine Collector → (Nat → Prop) → Prop} {N : Machine Collector → Nat → Nat → Prop}
  {u u' : Mutator}
  {H H' : Nat → Prop} {cmd : Command} {vs : List Value} {v v' : Value} {s : String}

/-- The value is a text that the program may read. -/
structure Mutator.Tells (I : Machine Collector → (Nat → Prop) → Prop) (u : Mutator) (H : Nat → Prop)
    (v : Value) (s : String) : Prop
    extends Steady I u H where
  usable : ∀ S, I u.machine S → (∀ o, H o → S o) → v.Within S
  text : u.machine.heap.textAt? v = some s

theorem Mutator.Tells.read (hl : Laws Collector.operations I N) (h : u.Tells I H v s) :
    text? v u.machine.heap = .ok (some s) := by
  obtain ⟨S, hi, hH⟩ := h.good
  rw [text?_run (hl.apart hi) (h.usable S hi hH), h.text]

/-- What is known of values and places after a command, whether it returns or fails. -/
theorem Command.Gives.retains {S : Nat → Prop} (hg : cmd.Gives u vs u') (hu' : u'.poisoned = false)
    (hend : Ends cmd.run u (cmd.Keeps u S) (cmd.Saves u S)) : ∃ ρ T,
      Follows ρ T (cmd.Writes u) u.machine.heap u'.machine.heap ∧
      (¬ cmd.MayCollect u → ρ = id ∧ ∀ o, S o → u'.Lists o → T o) ∧
      (∀ p w, cmd.Misses u p → u.at? p = some w → w.Within T ∧ u'.at? p = some (w.rename ρ)) ∧
      (cmd.run u = .ok vs u' → ∀ w w', cmd.Lodges u u' w w' vs → w.Within T ∧ w' = w.rename ρ) := by
  rcases hg with hrun | ⟨f, hrun, rfl⟩
  · obtain ⟨ρ, T, hk⟩ := hend.ok hrun
    exact ⟨ρ, T, hk.follows, hk.calm, fun p w hm hw => hk.place (hm.slot vs u' hrun) hm hw,
      fun _ => hk.lodged⟩
  · rcases hend.error hrun with hp | hk
    · rw [hp] at hu'
      cases hu'
    · obtain ⟨ρ, T, hk⟩ := hk f rfl
      exact ⟨ρ, T, hk.follows, hk.calm, fun p w hm hw => hk.place id hm hw,
        fun hok => by cases hok.symm.trans hrun⟩

section Step

variable (hl : Laws Collector.operations I N) (h : u.Tells I H v s)
  (hops : ∀ w ∈ cmd.operands, u.Allows H w)
  (hg : cmd.Gives u vs u') (hu' : u'.poisoned = false)

include hl h hops hg hu'

/-- A text is still the same after a command. -/
theorem Mutator.Tells.step (hb : u.Becomes H cmd vs u' v v') :
    u'.Tells I (u.held u' H vs) v' s := by
  obtain ⟨S, hi, hH⟩ := h.good
  have hsteady := h.toSteady.step hl hops hg hu'
  obtain ⟨ρ, T, hf, hcalm, hplace, hlodged⟩ :=
    hg.retains hu' (cmd.run_keeps hl hi h.clean h.parked fun w hw => (hops w hw).within hl hi hH)
  -- the text goes with the object
  have htext : v.Within T → u'.machine.heap.textAt? (v.rename ρ) = some s :=
    fun hv => hf.textAt? hv h.text
  cases hb with
  | stays hno hallow =>
    obtain ⟨rfl, hlisted⟩ := hcalm hno
    obtain ⟨S', hi', hH'⟩ := hsteady.good
    obtain ⟨listed, hrun, hmem⟩ := hl.objects hi'
    have hv : v.Within T := fun o ho => by
      obtain ⟨ha, hS⟩ := h.usable S hi hH o ho
      obtain ⟨n, hn⟩ := hmem o (hallow.within hl hi' hH' o ho).2
      exact ⟨ha, hlisted o hS ⟨listed, n, hrun, hn⟩⟩
    refine ⟨hsteady, fun S' hi' hH' => hallow.within hl hi' hH', ?_⟩
    have hself : v.rename id = v := hv.rename_self fun _ _ => rfl
    rw [← hself]
    exact htext hv
  | @rooted p v' hmiss hp hp' =>
    obtain ⟨hv, hat⟩ := hplace p v hmiss hp
    obtain rfl := Option.some.inj (hp'.symm.trans hat)
    refine ⟨hsteady, fun S' hi' _ => ?_, htext hv⟩
    obtain ⟨head, hhead, hpath⟩ := Option.bind_eq_some_iff.mp hp'
    exact Arena.follow?_within (hl.apart hi').closed (hl.roots hi' p.slot head hhead) p.fields hpath
  | lodged hrun hput hallow =>
    obtain ⟨hv, rfl⟩ := hlodged hrun _ _ hput
    exact ⟨hsteady, fun S' hi' hH' => hallow.within hl hi' hH', htext hv⟩

/-- No place that the command misses loses it. -/
theorem Mutator.Tells.place {p : Place} (hm : cmd.Misses u p) (hp : u.at? p = some v) :
    ∃ v', u'.at? p = some v' ∧ text? v' u'.machine.heap = .ok (some s) := by
  obtain ⟨S, hi, hH⟩ := h.good
  obtain ⟨ρ, T, -, -, hplace, -⟩ :=
    hg.retains hu' (cmd.run_keeps hl hi h.clean h.parked fun w hw => (hops w hw).within hl hi hH)
  obtain ⟨-, hp'⟩ := hplace p v hm hp
  exact ⟨_, hp', (h.step hl hops hg hu' (.rooted hm hp hp')).read hl⟩

end Step

/-- The value is read as this text, and a place that holds the value holds the text after any
command that misses the place. -/
structure Mutator.KeepsText (u : Mutator) (H : Nat → Prop) (v : Value) (s : String) : Prop where
  text : text? v u.machine.heap = .ok (some s)
  place : ∀ (cmd : Command) (vs : List Value) (u' : Mutator) (p : Place),
    (∀ w ∈ cmd.operands, u.Allows H w) → cmd.Gives u vs u' →
    u'.poisoned = false → cmd.Misses u p → u.at? p = some v → ∃ v', u'.at? p = some v' ∧
      text? v' u'.machine.heap = .ok (some s)

theorem Mutator.Tells.keeps (hl : Laws Collector.operations I N) (h : u.Tells I H v s) :
    u.KeepsText H v s :=
  ⟨h.read hl, fun _ _ _ _ hops hg hu' hm hp => h.place hl hops hg hu' hm hp⟩

theorem Lineage.tells (hl : Laws Collector.operations I N) (h : u.Tells I H v s)
    (hv : Lineage u H v u' H' v') : u'.Tells I H' v' s := by
  induction hv with
  | refl => exact h
  | step _ hops hg hu' hb ih => exact ih.step hl hops hg hu' hb

/-- A command that makes a text, unless it stops. -/
theorem Command.text_filled {S : Nat → Prop} (hl : Laws Collector.operations I N)
    (hi : I u.machine S) (hu : u.poisoned = false) (hcmd : cmd = .string s ∨ cmd = .symbol s)
    (hrun : cmd.run u = .ok vs u') : ∃ v t, vs = [v] ∧ (t = .string ∨ t = .symbol) ∧
      MutatorM.MadeOfWords I N u S (objectWord t (UInt64.ofNat (Text.encode s).length) :: Text.pack
        (Text.encode s)) v u' := by
  have hmade : ∀ t, t = .string ∨ t = .symbol →
      Ends (do return [← MutatorM.text t (Text.encode s)]) u
        (fun vs u' => ∃ v t, vs = [v] ∧ (t = .string ∨ t = .symbol) ∧
        MutatorM.MadeOfWords I N u S
          (objectWord t (UInt64.ofNat (Text.encode s).length) :: Text.pack (Text.encode s)) v u')
        fun _ _ => True := fun t ht =>
    (((MutatorM.text_constructs ht (Text.encode s)).ends hl hi hu).mono_error
      fun _ _ _ => trivial).bind
      fun v u' h => .pure ⟨v, t, rfl, ht, h⟩
  rcases hcmd with rfl | rfl
  · exact (hmade .string (.inl rfl)).ok hrun
  · exact (hmade .symbol (.inr rfl)).ok hrun

/-- What was made is the text, if the object word can tell its length. In an arena of `2^53` words
there is no longer one. -/
theorem Steady.tells (hl : Laws Collector.operations I N) (hs : Steady I u H)
    (hcmd : cmd = .string s ∨ cmd = .symbol s)
    (hlen : (Text.encode s).length < 0x100000000000000 ∨ u'.machine.heap.size ≤ 0x20000000000000)
    (hrun : cmd.run u = .ok vs u') :
    ∃ v, vs = [v] ∧ u'.Tells I (u.held u' H vs) v s := by
  obtain ⟨S, hi, hH⟩ := hs.good
  obtain ⟨v, t, rfl, ht, hu', ρ, S', k, o, rfl, -, hm, hnp, hholds⟩ :=
    Command.text_filled hl hi hs.clean hcmd hrun
  have hi' := hm.moved.inv
  have hknown := (hl.apart hi').closed.known o hm.mem
  have hroom := hl.new_inside hi' hm.mem hm.new
  have hshort : (Text.encode s).length < 0x100000000000000 := by
    rw [List.length_cons, Text.length_pack, wordsFor, wordBytes] at hroom
    omega
  have href := hl.ref?_ofRef hi' hm.mem
  obtain ⟨listed, hobj, hmem⟩ := hl.objects hi'
  obtain ⟨n, hn⟩ := hmem o hm.mem
  have hheld : u.held u' H [.ofRef o] o :=
    ⟨.inr ⟨_, List.mem_singleton_self _, href⟩, listed, n, hobj, hn⟩
  have hops : ∀ w ∈ cmd.operands, u.Allows H w := by
    rcases hcmd with rfl | rfl <;> simp [Command.operands]
  exact ⟨_, rfl, hs.step hl hops (.inl hrun) hu',
    fun S'' hi'' hH'' => hl.ofRef_within hi'' (hH'' o hheld),
    Arena.Holds.textAt? ht href hholds hknown hshort⟩

/-! ## After any session -/

/-- A text is read as it was written: from the words of the arena, and after any session from the
value that `string` or `symbol` made of it, whatever the program does then. A poisoned heap makes
none. -/
theorem session_texts :
    (∀ t, t = Tag.string ∨ t = Tag.symbol → ∀ bytes : List UInt8, bytes.length < 0x100000000000000 →
      ∀ (h : Arena) (o : Nat),
      o + textWords bytes.length ≤ h.size →
      ∃ h', (do store o (objectWord t (UInt64.ofNat bytes.length)); writeText o bytes : HeapM Unit)
        h = .ok () h' ∧
        Arena.Written t bytes o h h') ∧
    (∀ (c : Config) (u : Mutator) (H : Nat → Prop) (s : String) (cmd : Command)
      (vs : List Value) (u₁ : Mutator),
      Session c u H → cmd = .string s ∨ cmd = .symbol s →
      (Text.encode s).length < 0x100000000000000 ∨ u₁.machine.heap.size ≤ 0x20000000000000 →
        cmd.run u = .ok vs u₁ →
      ∃ v, vs = [v] ∧ text? v u₁.machine.heap = .ok (some s) ∧
        ∀ u' H' v', Lineage u₁ (u.held u₁ H vs) v u' H' v' → u'.KeepsText H' v' s) ∧
    (∀ (u : Mutator) (s : String) (cmd : Command), u.poisoned = true → cmd = .string s ∨
      cmd = .symbol s →
      cmd.run u = .error (.failed .poisoned) u) := by
  refine ⟨fun t ht bytes hlen h o hroom => Arena.text_written ht hlen hroom,
    fun c u H s cmd vs u₁ hs hcmd hlen hrun => ?_,
    fun u s cmd hu hcmd => ?_⟩
  rcases c.lawful with ⟨hc, h2⟩ | ⟨I, N, hl, hstart⟩
  · -- without room for an object, nothing is made
    obtain ⟨hb, -⟩ := MarkSweep.session_barren hc h2 hs
    have hstop : ∀ tag, ∃ e u', (do return [← MutatorM.text tag (Text.encode s)] : MutatorM _) u =
        .error e u' := fun tag => by
      obtain ⟨e, u', herr, -⟩ := (hb.text_refuses tag (Text.encode s)).bind (k := fun v => pure [v])
      exact ⟨e, u', herr⟩
    rcases hcmd with rfl | rfl
    · obtain ⟨e, u', herr⟩ := hstop .string
      cases hrun.symm.trans herr
    · obtain ⟨e, u', herr⟩ := hstop .symbol
      cases hrun.symm.trans herr
  · obtain ⟨v, rfl, htells⟩ := (hs.steady hl hstart).tells hl hcmd hlen hrun
    exact ⟨v, rfl, htells.read hl, fun u' H' v' hv => (hv.tells hl htells).keeps hl⟩
  · rcases hcmd with rfl | rfl
    all_goals
      unfold Command.run
      exact Refused.stop u hu

/-- A small heap. -/
def textHeap : Config :=
  { strategy := .copying, heapSize := 512, stackCapacity := 4, globalTableSize := 1 }

/-- The first object in it is a text of eleven bytes. -/
def writtenText : Mutator := (Command.string "naïve text").after (.ofConfig textHeap)

/-- What the program holds on to then. -/
def writtenTextHeld : Nat → Prop :=
  (Mutator.ofConfig textHeap).held writtenText (fun _ => False) [.ofRef 2]

/-- The text is pushed, and a collection moves it to the other half. -/
theorem writtenText_lineage : ∃ u' H', Lineage writtenText writtenTextHeld (.ofRef 2) u' H'
    (.ofRef 34) := by
  let u₁ := (Command.push (.ofRef 2)).after writtenText
  let u₂ := Command.collect.after u₁
  have hlisted : writtenText.objects.toOption = some [(2, 5)] := by decide +kernel
  have hallow : writtenText.Allows writtenTextHeld (.ofRef 2) :=
    Mutator.allows_returned (by decide) (by decide) hlisted (.head _)
  have hpushed : (Command.push (.ofRef 2)).Gives writtenText [] u₁ :=
    Command.gives_of_values (by decide +kernel)
  have hpush : Lineage writtenText writtenTextHeld (.ofRef 2) u₁ _ (.ofRef 2) :=
    .step .refl (by simp [Command.operands, hallow]) hpushed (by decide +kernel)
      (.stays id (Mutator.allows_root (.stack 0) (by decide) (by decide) (by decide +kernel)))
  let p : Place := ⟨.stack 0, [], by simp⟩
  have hmiss : Command.collect.Misses u₁ p := ⟨fun _ _ _ => id, fun _ _ => trivial⟩
  have hcollected : Command.collect.Gives u₁ [] u₂ := Command.gives_of_values (by decide +kernel)
  exact ⟨u₂, _, .step hpush (by simp [Command.operands]) hcollected (by decide +kernel)
    (.rooted hmiss (by decide +kernel) (by decide +kernel))⟩

/-- It is read from its new place. -/
theorem writtenText_moves :
    (∃ h', (do store 2 (objectWord .symbol
      (UInt64.ofNat 11)); writeText 2 (Text.encode "naïve text") : HeapM Unit)
      (.zeroed 5) = .ok () h' ∧
      Arena.Written .symbol (Text.encode "naïve text") 2 (.zeroed 5) h') ∧
    (∃ H, Session textHeap (.ofConfig textHeap) H) ∧ text? (.ofRef 2) writtenText.machine.heap =
    .ok (some "naïve text") ∧
    ∃ u' H', Lineage writtenText writtenTextHeld (.ofRef 2) u' H' (.ofRef 34) ∧
    text? (.ofRef 34) u'.machine.heap = .ok (some "naïve text") := by
  obtain ⟨harena, hsession, -⟩ := session_texts
  have hbytes : (Text.encode "naïve text").length = 11 := by decide +kernel
  have hstart := Session.start (c := textHeap) (u := .ofConfig textHeap) ⟨_, rfl⟩
  have hrun : (Command.string "naïve text").run (.ofConfig textHeap) = .ok [.ofRef 2] writtenText :=
    Command.run_of_values (by decide +kernel)
  obtain ⟨v, hv, hread, hlater⟩ := hsession textHeap _ _ "naïve text"
    (.string "naïve text") _ _ hstart (.inl rfl)
    (.inl (by rw [hbytes]; decide)) hrun
  obtain ⟨u', H', hline⟩ := writtenText_lineage
  cases hv
  refine ⟨?_, ⟨_, hstart⟩, hread, u', H', hline, (hlater _ _ _ hline).text⟩
  have hwritten := harena .symbol (.inr rfl) (Text.encode "naïve text") (by rw [hbytes]; decide)
    (.zeroed 5) 2 (by rw [hbytes]; decide)
  rwa [hbytes] at hwritten

end Reclaim
