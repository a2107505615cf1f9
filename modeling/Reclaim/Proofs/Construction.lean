import Reclaim.Proofs.Mutator

/-!
# Making objects

What the constructors of the mutator leave behind: a new object with the given words (`Made`), while
everything that the roots reach is carried along. A new object is zero at first, which is a
character; then its words are written, and the fields of a pair are stored last. A pair or a copy
takes values that are parked while room is made (`cons_eq`, `duplicate_eq`); `Fetched` and
`Gathered` say what is known once they were taken back.

Results:
* `Constructs.ends`: objects without references, which are made by `char_constructs`,
  `text_constructs` and `lambda_constructs`.
* `cons_ends`: a pair of what its operands have become.
* `duplicate_ends`: an object with the words of another one.
-/

namespace Reclaim

/-! ## Object words -/

theorem toUInt8_objectWord (t : Tag) (aux : Word) : (objectWord t aux).toUInt8 = t.code := by
  rw [objectWord]
  refine UInt8.eq_of_toBitVec_eq ?_
  simp only [UInt64.toBitVec_toUInt8, UInt64.toBitVec_or, UInt64.toBitVec_shiftLeft]
  ext i hi
  simp

/-- What is above the tag, less the bits that are lost. -/
theorem shiftRight_objectWord (t : Tag) (aux : Word) :
    (objectWord t aux >>> 8).toNat = aux.toNat % 0x100000000000000 := by
  have hc : t.code.toNat < 256 := UInt8.toNat_lt _
  have h8 : t.code.toUInt64.toNat = t.code.toNat := by simp
  have hor : (t.code.toNat ||| aux.toNat * 2 ^ 8 % 18446744073709551616) / 2 ^ 8
      = t.code.toNat / 2 ^ 8 ||| (aux.toNat * 2 ^ 8 % 18446744073709551616) / 2 ^ 8 :=
        Nat.or_div_two_pow ..
  rw [objectWord, UInt64.toNat_shiftRight, UInt64.toNat_or, UInt64.toNat_shiftLeft, h8]
  simp only [UInt64.reduceToNat, Nat.reduceMod, Nat.reducePow]
  rw [Nat.shiftRight_eq_div_pow, Nat.shiftLeft_eq, hor, Nat.div_eq_of_lt (by omega), Nat.zero_or]
  omega

theorem textWords_mono {a b : Nat} (hab : a ≤ b) : textWords a ≤ textWords b := by
  simp only [textWords, wordsFor, wordBytes]
  omega

namespace Arena

variable {h : Arena} {o : Nat}

theorem tag_of_objectWord {t : Tag} {aux : Word} (hw : h.word o = objectWord t aux) :
    h.tag o = some t := by
  rw [tag, hw, toUInt8_objectWord, Tag.ofCode?_code]

/-- The words from `a` on replaced by `ws`. -/
def puts (h : Arena) (a : Nat) : List Word → Arena
  | [] => h
  | w :: ws => (h.put a w).puts (a + 1) ws

@[simp] theorem size_puts (h : Arena) (a : Nat) (ws : List Word) : (h.puts a ws).size = h.size := by
  induction ws generalizing h a with
  | nil => rfl
  | cons w ws ih => rw [puts, ih, size_put]

theorem word_puts_outside {a b : Nat} {ws : List Word} (hb : b < a ∨ a + ws.length ≤ b) :
    (h.puts a ws).word b = h.word b := by
  induction ws generalizing h a with
  | nil => rfl
  | cons w ws ih =>
    simp only [List.length_cons] at hb
    rw [puts, ih (by omega)]
    exact word_put_ne _ (by omega)

theorem word_puts {a i : Nat} {ws : List Word} (hs : a + ws.length ≤ h.size) (hi : i < ws.length) :
    (h.puts a ws).word (a + i) = ws[i] := by
  induction ws generalizing h a i with
  | nil => cases hi
  | cons w ws ih =>
    simp only [List.length_cons] at hs hi
    cases i with
    | zero => rw [puts, word_puts_outside (by omega)]; exact word_put_self _ (by omega)
    | succ i =>
      have hword := ih (h := h.put a w) (a := a + 1) (i := i) (by simp; omega) (by omega)
      rw [show a + 1 + i = a + (i + 1) by omega] at hword
      exact hword

/-- The object word of a pair is written in front of zeros, which are no references. -/
theorem put_pair (hin : o + 3 ≤ h.size) (hz : ∀ i, i < 3 → h.word (o + i) = 0) :
    (h.put o (objectWord .pair 0)).tag o = some .pair ∧
      (∀ i, i = 1 ∨ i = 2 → ((h.put o (objectWord .pair 0)).value (o + i)).isRef = false) ∧
      (h.put o (objectWord .pair 0)).succ o = [] ∧ h.succ o = [] := by
  have hw : (h.put o (objectWord .pair 0)).word o = objectWord .pair 0 := word_put_self _ (by omega)
  have htag := tag_of_objectWord hw
  have hval : ∀ i, i = 1 ∨ i = 2 →
      ((h.put o (objectWord .pair 0)).value (o + i)).isRef = false := by
    intro i hi
    have hw0 : (h.put o (objectWord .pair 0)).word (o + i) = 0 := by
      rw [word_put_ne _ (by omega)]
      exact hz i (by omega)
    rw [value, hw0]
    exact Value.not_isRef_zero
  have hw0 : h.word o = 0 := hz 0 (by omega)
  refine ⟨htag, hval, ?_, ?_⟩
  · rw [succ, fields, if_pos htag]
    simp [hval]
  · rw [succ, fields_of_not_pair (by rw [tag_of_zero hw0]; decide)]
    rfl

/-- The object at `o` is made of the first of the words `ws`. -/
def Holds (h : Arena) (o : Nat) (ws : List Word) : Prop := ∀ i, i < h.payload o →
    ws[i]? = some (h.word (o + i))

end Arena

/-- An object without references holds the same words wherever it is. -/
theorem Renamed.holds {ρ : Nat → Nat} {S : Nat → Prop} {h h' : Arena} {ws : List Word}
    (hr : Renamed ρ S h h') (hS : Closed h S) {o : Nat} (ho : S o) (ht : h.tag o ≠ some .pair)
    (hw : h.Holds o ws) : h'.Holds (ρ o) ws := by
  intro i hi
  rw [hr.payload hS ho] at hi
  rw [hr.word o i ho hi fun hp => ht hp.1]
  exact hw i hi

theorem storeRun_run {h : Arena} {a : Nat} {ws : List Word} (hs : a + ws.length ≤ h.size) :
    storeRun a ws h = .ok () (h.puts a ws) := by
  induction ws generalizing h a with
  | nil => rfl
  | cons w ws ih =>
    simp only [List.length_cons] at hs
    rw [storeRun, bind_ok (store_run (by omega)), ih (by simp; omega)]
    rfl

/-! ## New objects -/

/-- The object `o` was made, in a block with room for `n` words, and the rest was carried along. -/
structure Made (I : Machine Collector → (Nat → Prop) → Prop)
    (N : Machine Collector → Nat → Nat → Prop) (L : Nat → Prop) (m m' : Machine Collector)
    (S S' : Nat → Prop) (ρ : Nat → Nat) (k o n : Nat) : Prop where
  moved : Carried I L m m' S S' ρ k
  mem : S' o
  new : N m' o n
  fresh : ∀ x, L x → ρ x ≠ o

section Made

variable {I : Machine Collector → (Nat → Prop) → Prop} {N : Machine Collector → Nat → Nat → Prop}
  {L S S' : Nat → Prop} {ρ : Nat → Nat} {k o n : Nat} {m m' m'' : Machine Collector}

/-- What happens to the machine afterwards, if it keeps what was carried along. -/
theorem Carried.after (h : Carried I L m m' S S' ρ k) (hi : I m'' S')
    (hsame : ∀ x i, L x → i < m'.heap.payload (ρ x) → m''.heap.word (ρ x + i) =
      m'.heap.word (ρ x + i)) (hroots : m''.roots = m'.roots) (hstress : m''.stress = m'.stress)
      (hstats : m''.stats.collections = m'.stats.collections) : Carried I L m m'' S S' ρ k := by
  refine ⟨h.closed, h.live, hi,
    ⟨h.renamed.injective, fun o i ho hlt hn => ?_, fun o i ho ht hio => ?_⟩, h.kept,
    by rw [hroots]; exact h.roots, by rw [hstress, h.stress], by rw [hstats, h.cycles], h.quiet⟩
  · rw [hsame o i ho (by rw [h.renamed.payload h.closed ho]; exact hlt)]
    exact h.renamed.word o i ho hlt hn
  · have hp := Arena.payload_of_pair ht
    rw [← h.renamed.field o i ho ht hio]
    exact Arena.value_congr (hsame o i ho (by rw [h.renamed.payload h.closed ho]; omega))

theorem Carried.mono {T : Nat → Prop} (h : Carried I L m m' S S' ρ k) (hT : ∀ o, T o → L o)
    (hcl : Closed m.heap T) (hlive : m.roots.Within T) : Carried I T m m' S S' ρ k :=
  ⟨hcl, hlive, h.inv, h.renamed.mono hT,
    fun o ho => h.kept o (hT o ho), h.roots, h.stress, h.cycles, h.quiet⟩

theorem Laws.closed_reachable {ops : Operations Collector} (hl : Laws ops I N) (hi : I m S) :
    Closed m.heap m.Reachable :=
  Machine.closed_reachable (hl.apart hi).closed (hl.roots hi)

theorem Laws.named {ops : Operations Collector} (hl : Laws ops I N) (hi : I m S) :
    Value.Named S := by
  intro o ho
  have hin := (hl.apart hi).inside o ho
  have hp := Arena.payload_pos ((hl.apart hi).closed.known o ho)
  have hs := hl.small hi
  omega

/-- An object fits into memory. -/
theorem Laws.payload_lt {ops : Operations Collector} (hl : Laws ops I N) (hi : I m S) (ho : S o) :
    m.heap.payload o < tableLimit := by
  have hin := (hl.apart hi).inside o ho
  have hs := hl.small hi
  unfold tableLimit
  omega

/-- References to objects are told from other values. -/
theorem Laws.ref?_ofRef {ops : Operations Collector} (hl : Laws ops I N) (hi : I m S) {o : Nat}
    (ho : S o) : (Value.ofRef o).ref? = some o := by
  obtain ⟨h0, hlt⟩ := hl.named hi o ho
  exact Value.ref?_ofRef h0 (by omega)

theorem Laws.ofRef_within {ops : Operations Collector} (hl : Laws ops I N) (hi : I m S) {o : Nat}
    (ho : S o) : (Value.ofRef o).Within S := by
  obtain ⟨h0, hlt⟩ := hl.named hi o ho
  exact Value.ofRef_within h0 (by omega) ho

/-- Words without references are written into the new object. -/
theorem Made.write (hl : Laws Collector.operations I N) (hm : Made I N L m m' S S' ρ k o n)
    (hzero : m'.heap.word o = 0) {ws : List Word} (hlen : ws.length = n) {h' : Arena}
    (hh : h' = m'.heap.puts o ws) (htag : h'.tag o ≠ none) (hpair : h'.tag o ≠ some .pair)
    (hpay : h'.payload o ≤ n) :
    Made I N L m (m'.withHeap h') S S' ρ k o n := by
  subst hh
  have hsucc : ∀ h : Arena, h.tag o ≠ some .pair → h.succ o = [] := by
    intro h ht
    rw [Arena.succ, Arena.fields_of_not_pair ht]
    rfl
  have hout : ∀ a, a < o ∨ o + n ≤ a → (m'.heap.puts o ws).word a = m'.heap.word a := fun a ha =>
    Arena.word_puts_outside (by omega)
  obtain ⟨hi', hN⟩ := hl.overwrite hm.moved.inv hm.mem hm.new
    (hsucc _ (by rw [Arena.tag_of_zero hzero]; decide))
    (Arena.size_puts _ _ _) hout htag hpay (hsucc _ hpair)
  refine ⟨hm.moved.after hi' (fun x i hx hlt => ?_) rfl rfl rfl, hm.mem, hN, hm.fresh⟩
  have hap := hl.new_apart hm.moved.inv hm.mem hm.new (hm.moved.kept x hx) (hm.fresh x hx)
  exact hout _ (by omega)

namespace MutatorM

variable {u : Mutator}

/-- Nothing has happened, since no word counts the bytes of an object of `n` words. -/
def Uncounted (u : Mutator) (n : Nat) (e : Fault) (u' : Mutator) : Prop :=
  e = .trap ∧ u' = u ∧ ¬ Collector.operations.Countable u.machine n

/-- Then no failure is reported. -/
theorem Uncounted.silent {e : Fault} {u' : Mutator} {P : Failure → Prop} (h : Uncounted u n e u')
    (f : Failure) (hf : e = .failed f) : P f := by
  cases h.1.symm.trans hf

theorem allocateWords_overflows (hl : Laws Collector.operations I N) (hi : I u.machine S)
    (hu : u.poisoned = false) (hn : 1 ≤ n) (hcount : ¬ Collector.operations.Countable u.machine n) :
    allocateWords n u = .error .trap u :=
  bind_error (operate_error hu (hl.overflow hi hn hcount) (by simp))

/-- A new object, all zero. -/
theorem allocateWords_ends_of_countable (hl : Laws Collector.operations I N) (hi : I u.machine S)
    (hu : u.poisoned = false) (hn : 1 ≤ n) (hcount : Collector.operations.Countable u.machine n) :
    Ends (allocateWords n) u (fun o u' => u'.poisoned = false ∧ ∃ ρ S' k, k ≤ 3 ∧
      Made I N u.machine.Reachable u.machine u'.machine S S' ρ k o n ∧ ∀ i, i < n →
        u'.machine.heap.word (o + i) = 0)
      (fun _ u' => u'.poisoned = true) := by
  unfold allocateWords
  refine (operate_ends (Q := fun o u' => u'.poisoned = false ∧ ∃ ρ S' k, k ≤ 3 ∧
    Made I N u.machine.Reachable u.machine u'.machine S S' ρ k o n ∧ ∀ i, i < n →
      u'.machine.heap.word (o + i) = 0) hu
    ((hl.allocate hi hn hcount).mono ?_) fun _ _ h => h).bind ?_
  · rintro o m' ⟨ρ, S', k, hk, hmv, ho, hN, hz, hne⟩
    exact ⟨hu, ρ, S', k, hk, ⟨hmv, ho, hN, hne⟩, hz⟩
  · rintro o u' ⟨hu', ρ, S', k, hk, hm, hz⟩
    refine .step (a := ()) (t := { u' with machine := { u'.machine with
      stats := u'.machine.stats.recordAllocation (n + u'.machine.own.headerWords) } }) rfl ?_
    refine .pure ⟨hu', ρ, S', k, hk, ⟨?_, hm.mem, hl.new_congr hm.new rfl rfl, hm.fresh⟩, hz⟩
    exact hm.moved.after (hl.congr hm.moved.inv rfl rfl rfl) (fun _ _ _ _ => rfl) rfl rfl rfl

/-- A new object of any size. -/
theorem allocateWords_ends (hl : Laws Collector.operations I N) (hi : I u.machine S)
    (hu : u.poisoned = false) (hn : 1 ≤ n) :
    Ends (allocateWords n) u (fun o u' => u'.poisoned = false ∧ ∃ ρ S' k, k ≤ 3 ∧
      Made I N u.machine.Reachable u.machine u'.machine S S' ρ k o n ∧ ∀ i, i < n →
        u'.machine.heap.word (o + i) = 0)
      (fun e u' => u'.poisoned = true ∨ Uncounted u n e u') := by
  by_cases hcount : Collector.operations.Countable u.machine n
  · exact (allocateWords_ends_of_countable hl hi hu hn hcount).mono_error fun _ _ h => .inl h
  · exact .of_error (allocateWords_overflows hl hi hu hn hcount) (.inr ⟨rfl, rfl, hcount⟩)

/-! ## Objects without references -/

/-- The result `v` refers to a new object of the words `ws`. -/
def MadeOfWords (I : Machine Collector → (Nat → Prop) → Prop)
    (N : Machine Collector → Nat → Nat → Prop) (u : Mutator) (S : Nat → Prop)
    (ws : List Word) (v : Value) (u' : Mutator) : Prop :=
  u'.poisoned = false ∧ ∃ ρ S' k o, v = .ofRef o ∧ k ≤ 3 ∧
    Made I N u.machine.Reachable u.machine u'.machine S S' ρ k o ws.length ∧
    u'.machine.heap.tag o ≠ some .pair ∧ u'.machine.heap.Holds o ws

/-- A constructor that allocates and then writes an object word, which is not that of a pair, and
the words `ws` behind it. -/
structure Constructs (y : MutatorM Value) (t : Tag) (aux : Word) (ws : List Word) : Prop where
  plain : t ≠ .pair
  payload : ∀ (h : Arena) o, h.word o = objectWord t aux → h.payload o ≤ ws.length + 1
  run : ∃ x : Nat → MutatorM Value, y = allocateWords (ws.length + 1) >>= x ∧ ∀ o u',
    o + (ws.length + 1) ≤ u'.machine.heap.size →
    x o u' = .ok (.ofRef o) (u'.withHeap (u'.machine.heap.puts o (objectWord t aux :: ws)))

theorem char_constructs (c : Char) : Constructs (char c) .char c.val.toUInt64 [] := by
  refine ⟨by decide, fun h o hw => ?_, _, rfl, fun o u' hs => ?_⟩
  · rw [Arena.payload, Arena.tag_of_objectWord hw]
    exact Nat.le_refl _
  · have hstore : store o (objectWord .char c.val.toUInt64) u'.machine.heap
        = .ok () (u'.machine.heap.put o (objectWord .char c.val.toUInt64)) :=
          store_run (by simp at hs; omega)
    rw [bind_ok (heap_lift hstore)]
    rfl

theorem textWords_eq (bytes : List UInt8) :
    textWords bytes.length = (Text.pack bytes).length + 1 := by
  rw [Text.length_pack, textWords, Nat.add_comm]

/-- The words of a text with a length that an object word can hold. -/
theorem text_fits {bytes : List UInt8} (h : bytes.length < 0x100000000000000) :
    (Text.pack bytes).length + 1 < tableLimit := by
  rw [← textWords_eq, textWords, wordsFor, wordBytes, tableLimit]
  omega

theorem text_constructs {t : Tag} (ht : t = .string ∨ t = .symbol) (bytes : List UInt8) :
    Constructs (text t bytes) t (UInt64.ofNat bytes.length) (Text.pack bytes) := by
  have hlen := textWords_eq bytes
  refine ⟨by rcases ht with rfl | rfl <;> decide, fun h o hw => ?_, _, by unfold text; rw [hlen],
    fun o u' hs => ?_⟩
  · have hle : (h.word o >>> 8).toNat ≤ bytes.length := by
      rw [hw, shiftRight_objectWord, UInt64.toNat_ofNat']
      exact Nat.le_trans (Nat.mod_le _ _) (Nat.mod_le _ _)
    have htag := Arena.tag_of_objectWord hw
    rw [Arena.payload_of_text (by rcases ht with rfl | rfl <;> simp [htag]), ← hlen]
    exact textWords_mono hle
  · let h1 := u'.machine.heap.put o (objectWord t (UInt64.ofNat bytes.length))
    have e1 : store o (objectWord t (UInt64.ofNat bytes.length)) u'.machine.heap = .ok () h1 :=
      store_run (by omega)
    have e2 : writeText o bytes h1 = .ok () (h1.puts (o + 1) (Text.pack bytes)) :=
      storeRun_run (by simp [h1]; omega)
    rw [bind_ok (heap_lift e1), bind_ok (heap_lift_next e2)]
    rfl

theorem lambda_constructs (entry params : Int) (variadic : Bool) :
    Constructs (lambda entry params variadic) .lambda (if variadic then 1 else 0)
    [(Value.int entry).bits, (Value.int params).bits] := by
  refine ⟨by decide, fun h o hw => ?_, _, rfl, fun o u' hs => ?_⟩
  · rw [Arena.payload, Arena.tag_of_objectWord hw]
    exact Nat.le_refl _
  · simp only [List.length_cons, List.length_nil] at hs
    let h1 := u'.machine.heap.put o (objectWord .lambda (if variadic then 1 else 0))
    let h2 := h1.put (o + 1) (Value.int entry).bits
    have e1 : store o (objectWord .lambda (if variadic then 1 else 0)) u'.machine.heap =
      .ok () h1 := store_run (by omega)
    have e2 : storeValue (o + entryField) (.int entry) h1 = .ok () h2 :=
      storeValue_run (by simp [h1, entryField]; omega)
    have e3 : storeValue (o + paramsField) (.int params) h2 = .ok ()
        (h2.put (o + 2) (Value.int params).bits) :=
      storeValue_run (by simp [h1, h2, paramsField]; omega)
    rw [bind_ok (heap_lift e1), bind_ok (heap_lift_next e2),
      bind_ok (heap_lift_next e3)]
    rfl

/-- The words that a constructor writes, as those of an object. -/
theorem Constructs.words {y : MutatorM Value} {t : Tag} {aux : Word} {ws : List Word}
    (hy : Constructs y t aux ws) {h : Arena} (hin : o + (ws.length + 1) ≤ h.size) :
    (h.puts o (objectWord t aux :: ws)).tag o = some t ∧
      (h.puts o (objectWord t aux :: ws)).payload o ≤ ws.length + 1 ∧
      (h.puts o (objectWord t aux :: ws)).tag o ≠ some .pair := by
  have hw : (h.puts o (objectWord t aux :: ws)).word o = objectWord t aux :=
    Arena.word_puts (i := 0) (by simpa using hin) (by simp)
  have htag := Arena.tag_of_objectWord hw
  exact ⟨htag, hy.payload _ o hw, by rw [htag]; simpa using hy.plain⟩

theorem Constructs.ends {y : MutatorM Value} {t : Tag} {aux : Word} {ws : List Word}
    (hy : Constructs y t aux ws) (hl : Laws Collector.operations I N) (hi : I u.machine S)
    (hu : u.poisoned = false) :
    Ends y u (MadeOfWords I N u S (objectWord t aux :: ws))
      (fun e u' => u'.poisoned = true ∨ Uncounted u (ws.length + 1) e u') := by
  obtain ⟨x, rfl, hx⟩ := hy.run
  refine (allocateWords_ends hl hi hu (by omega)).bind ?_
  rintro o u' ⟨hu', ρ, S', k, hk, hm, hz⟩
  have hin := hl.new_inside hm.moved.inv hm.mem hm.new
  obtain ⟨htag, hle, hnp⟩ := hy.words hin
  refine .of_eq (hx o u' hin) ⟨hu', ρ, S', k, o, rfl, hk, ?_, hnp, fun i hi => ?_⟩
  · exact hm.write hl (hz 0 (by omega)) (by simp) rfl (by rw [htag]; simp) hnp hle
  · have hi' : i < (objectWord t aux :: ws).length := by
      rw [List.length_cons]
      exact Nat.lt_of_lt_of_le hi hle
    rw [List.getElem?_eq_getElem hi', ← Arena.word_puts (h := u'.machine.heap) (a := o)
      (by simpa using hin) hi']
    rfl

/-- Objects that fit into memory. -/
theorem Constructs.ends_of_lt {y : MutatorM Value} {t : Tag} {aux : Word} {ws : List Word}
    (hy : Constructs y t aux ws) (hl : Laws Collector.operations I N) (hi : I u.machine S)
    (hu : u.poisoned = false) (hlen : ws.length + 1 < tableLimit) :
    Ends y u (MadeOfWords I N u S (objectWord t aux :: ws)) (fun _ u' => u'.poisoned = true) :=
  (hy.ends hl hi hu).mono_error fun _ _ h =>
    h.elim id fun h => absurd (Collector.countable_of_lt hlen) h.2.2

/-! ## Pairs -/

/-- The object word of a pair is written into a new object. -/
theorem Made.writePair (hl : Laws Collector.operations I N) (hm : Made I N L m m' S S' ρ k o 3)
    (hz : ∀ i, i < 3 → m'.heap.word (o + i) = 0) :
    Made I N L m (m'.withHeap (m'.heap.put o (objectWord .pair 0))) S S' ρ k o 3 ∧
      (m'.heap.put o (objectWord .pair 0)).tag o = some .pair ∧
      ∀ i, i = 1 ∨ i = 2 → ((m'.heap.put o (objectWord .pair 0)).value (o + i)).isRef = false := by
  obtain ⟨htag, hval, hsucc, hzero⟩ := Arena.put_pair (hl.new_inside hm.moved.inv hm.mem hm.new) hz
  have hout : ∀ a, a < o ∨ o + 3 ≤ a →
      (m'.heap.put o (objectWord .pair 0)).word a = m'.heap.word a := fun a ha =>
    Arena.word_put_ne _ (by omega)
  obtain ⟨hi', hN⟩ := hl.overwrite hm.moved.inv hm.mem hm.new hzero (by simp) hout
    (by rw [htag]; simp)
    (Nat.le_of_eq (Arena.payload_of_pair htag)) hsucc
  refine ⟨⟨hm.moved.after hi' (fun x i hx hlt => ?_) rfl rfl rfl, hm.mem, hN, hm.fresh⟩, htag, hval⟩
  have hap := hl.new_apart hm.moved.inv hm.mem hm.new (hm.moved.kept x hx) (hm.fresh x hx)
  exact hout _ (by omega)

/-- A field of a new pair gets its first value. -/
theorem Made.init (hl : Laws Collector.operations I N) (hm : Made I N L m m' S S' ρ k o 3)
    (ht : m'.heap.tag o = some .pair) {i : Nat} (hio : i = 1 ∨ i = 2)
    (hnr : (m'.heap.value (o + i)).isRef = false) {v : Value} (hv : v.Within S') : ∃ m'',
    Collector.initField (o + i) v m' = .ok () m'' ∧ Made I N L m m'' S S' ρ k o 3 ∧
      m''.heap.word o = m'.heap.word o ∧ m''.heap.value (o + i) = v ∧
      ∀ j, j = 1 ∨ j = 2 → j ≠ i → m''.heap.value (o + j) = m'.heap.value (o + j) := by
  have hf : o + i = o + 1 ∨ o + i = o + 2 := by omega
  have hp := Arena.payload_of_pair ht
  obtain ⟨m'', hrun, hi'', hN, hst, hroots, hstats, hstress⟩ :=
    hl.initField hm.moved.inv hm.mem hm.new (Nat.le_refl _) ht hf hnr hv
  have hap := hl.apart hm.moved.inv
  refine ⟨m'', hrun, ⟨hm.moved.after hi'' (fun x j hx hlt => ?_) hroots hstress (by rw [hstats]),
    hm.mem, hN, hm.fresh⟩, hst.head hap hm.mem ht hf hm.mem, ?_, fun j hj hne => ?_⟩
  · rw [hst _ j (hm.moved.kept x hx) hlt, if_neg]
    intro he
    exact hm.fresh x hx (hap.field_unique hm.mem ht hf (hm.moved.kept x hx) hlt he)
  · have hw := hst o i hm.mem (by omega)
    rw [if_pos rfl] at hw
    rw [Arena.value, hw]
  · have hw := hst o j hm.mem (by omega)
    rw [if_neg (by omega)] at hw
    exact Arena.value_congr hw

/-- The result `v` refers to a new pair of what `car` and `cdr` have become. -/
def Paired (I : Machine Collector → (Nat → Prop) → Prop) (N : Machine Collector → Nat → Nat → Prop)
    (u : Mutator) (S : Nat → Prop) (car cdr v : Value) (u' : Mutator) : Prop :=
  u'.poisoned = false ∧ Roots.parking u.machine.roots.stack.size
    u.machine.roots.capacity 2 = .ok () ∧
    ∃ ρ S' k o, v = .ofRef o ∧ k ≤ 3 ∧
      Made I N (u.machine.Live [car, cdr]) u.machine u'.machine S S' ρ k o 3 ∧
      u'.machine.heap.word o = objectWord .pair 0 ∧ u'.machine.heap.value (o + 1) = car.rename ρ ∧
      u'.machine.heap.value (o + 2) = cdr.rename ρ

/-- A new object while values are parked, which stay live as well. -/
theorem allocateWords_parked (hl : Laws Collector.operations I N) (hi : I u.machine S)
    (hu : u.poisoned = false) (hn : 1 ≤ n) (hlt : n < tableLimit)
    (hL : ∀ x, L x → u.machine.Reachable x) (hcl : Closed u.machine.heap L)
    (hlive : u.machine.roots.Within L) :
    Ends (allocateWords n) u (fun o u' => u'.poisoned = false ∧
      Roots.parking u.machine.roots.stack.size u.machine.roots.capacity 0 = .ok () ∧
      ∃ ρ S' k, k ≤ 3 ∧ Carried I L u.machine u'.machine S S' ρ k ∧ S' o ∧ N u'.machine o n ∧
        (∀ i, i < n → u'.machine.heap.word (o + i) = 0) ∧ ∀ x, L x → ρ x ≠ o) (Stops u 0) := by
  refine ((allocateWords_ends_of_countable hl hi hu hn
    (Collector.countable_of_lt hlt)).mono ?_).mono_error
    fun _ _ h => .inl h
  rintro o u' ⟨hu', ρ, S', k, hk, hm, hz⟩
  exact ⟨hu', rfl, ρ, S', k, hk, hm.moved.mono hL hcl hlive, hm.mem, hm.new, hz,
    fun x hx => hm.fresh x (hL x hx)⟩

/-- What was fetched for a pair of `car` and `cdr`: the two under their new addresses, and the new
object. -/
def Fetched (I : Machine Collector → (Nat → Prop) → Prop) (N : Machine Collector → Nat → Nat → Prop)
    (u : Mutator) (S : Nat → Prop) (car cdr : Value) (r : Value × Value × Nat)
    (u' : Mutator) : Prop :=
  u'.poisoned = false ∧ Roots.parking u.machine.roots.stack.size
    u.machine.roots.capacity 2 = .ok () ∧
    ∃ ρ S' k, k ≤ 3 ∧ Made I N (u.machine.Live [car, cdr]) u.machine u'.machine S S' ρ k r.2.2 3 ∧
      (∀ i, i < 3 → u'.machine.heap.word (r.2.2 + i) = 0) ∧
      r.1 = car.rename ρ ∧ r.1.Within S' ∧ r.2.1 = cdr.rename ρ ∧ r.2.1.Within S'

theorem fetched_ends (hl : Laws Collector.operations I N) (hi : I u.machine S)
    (hu : u.poisoned = false) {car cdr : Value} (hcar : car.Within S) (hcdr : cdr.Within S) :
    Ends (keeping car (keeping cdr (allocateWords 3))) u (Fetched I N u S car cdr) (Stops u 2) := by
  -- what is known of the new object while the operands are parked
  let P : Nat → Machine Collector → (Nat → Prop) → (Nat → Nat) → Prop :=
    fun o m S' ρ => S' o ∧ N m o 3 ∧
    (∀ i, i < 3 → m.heap.word (o + i) = 0) ∧ ∀ x, u.machine.Live [car, cdr] x → ρ x ≠ o
  let P' : Value × Nat → Machine Collector → (Nat → Prop) → (Nat → Nat) → Prop :=
    fun r m S' ρ => P r.2 m S' ρ ∧
    r.1 = cdr.rename ρ ∧ r.1.Within S'
  have hP : ∀ {o m S' ρ} r, P o m S' ρ → P o (m.withRoots r) S' ρ := fun r h =>
    ⟨h.1, hl.new_congr h.2.1 rfl rfl, h.2.2⟩
  have hops : ∀ v ∈ [car, cdr], v.Within S := by
    intro v hv
    simp only [List.mem_cons, List.not_mem_nil, or_false] at hv
    rcases hv with rfl | rfl
    · exact hcar
    · exact hcdr
  have hcl : Closed u.machine.heap (u.machine.Live [car, cdr]) :=
    Machine.closed_live (hl.apart hi).closed (hl.roots hi) hops
  have hlive : ((u.machine.roots.withParked car).withParked cdr).Within
      (u.machine.Live [car, cdr]) :=
    ((Machine.roots_live (hl.roots hi)).push (Machine.within_live (by simp) hcar) _).push
      (Machine.within_live (by simp) hcdr) _
  refine (keeping_ends (n := 1) (K := 3) (P := P') (L := u.machine.Live [car, cdr]) hl hi hcar
    (fun r h => ⟨hP r h.1, h.2⟩) ?_).mono ?_
  · intro hi₁
    refine (keeping_ends (n := 0) (K := 3) (P := P)
      (L := u.machine.Live [car, cdr]) hl hi₁ hcdr hP fun hi₂ => ?_).mono ?_
    · exact allocateWords_parked (n := 3) hl hi₂ hu (by omega) (by decide)
        (fun x hx => hx.withParked.withParked.reachable) hcl hlive
    · rintro r u' ⟨hu', hpark, ρ, S', k, hk, hmv, hPr, hr, hw⟩
      exact ⟨hu', hpark, ρ, S', k, hk, hmv, ⟨hPr, hr, hw⟩⟩
  · rintro ⟨car', cdr', o⟩ u'
      ⟨hu', hpark, ρ, S', k, hk, hmv, ⟨⟨ho, hN, hz, hne⟩, rfl, hcdr'⟩, rfl, hcar'⟩
    exact ⟨hu', hpark, ρ, S', k, hk, ⟨hmv, ho, hN, hne⟩, hz, rfl, hcar', rfl, hcdr'⟩

/-- Writes the pair of `car` and `cdr` into a new object. -/
def fillPair (car cdr : Value) (o : Nat) : MutatorM Value := do
  store o (objectWord .pair 0)
  initField (o + cdrField) cdr
  initField (o + carField) car
  return .ofRef o

theorem cons_eq (car cdr : Value) : cons car cdr = (do
    check
    let (car, cdr, o) ← keeping car (keeping cdr (allocateWords pairWords))
    fillPair car cdr o) := rfl

/-- Once everything was fetched, the pair is made. -/
theorem Fetched.pairs (hl : Laws Collector.operations I N) {car cdr : Value}
    {r : Value × Value × Nat} {u' : Mutator} (h : Fetched I N u S car cdr r u')
    {E : Fault → Mutator → Prop} :
    Ends (fillPair r.1 r.2.1 r.2.2) u' (Paired I N u S car cdr) E := by
  obtain ⟨car', cdr', o⟩ := r
  obtain ⟨hu', hpark, ρ, S', k, hk, hm, hz, rfl, hcar', rfl, hcdr'⟩ := h
  obtain ⟨hm1, ht1, hnr1⟩ := Made.writePair hl hm hz
  have hin : o + 3 ≤ u'.machine.heap.size := hl.new_inside hm.moved.inv hm.mem hm.new
  have e1 : store o (objectWord .pair 0) u'.machine.heap = .ok ()
      (u'.machine.heap.put o (objectWord .pair 0)) :=
    store_run (by omega)
  have hw1 : (u'.machine.heap.put o (objectWord .pair 0)).word o = objectWord .pair 0 :=
    Arena.word_put_self _ (by omega)
  obtain ⟨m2, e2, hm2, hw2, hcdr2, hother2⟩ := Made.init hl hm1 ht1 (i := 2) (.inr rfl)
    (hnr1 2 (.inr rfl)) hcdr'
  obtain ⟨m3, e3, hm3, hw3, hcar3, hother3⟩ :=
    Made.init hl hm2 (Arena.tag_of_objectWord (hw2.trans hw1)) (i := 1) (.inl rfl)
    (by rw [hother2 1 (.inl rfl) (by omega)]; exact hnr1 1 (.inl rfl)) hcar'
  refine .step (heap_lift e1) (.step (guarded_run e2) (.step (guarded_run e3) ?_))
  refine .pure ⟨hu', hpark, ρ, S', k, o, rfl, hk, hm3, hw3.trans (hw2.trans hw1), hcar3, ?_⟩
  exact (hother3 2 (.inr rfl) (by omega)).trans hcdr2

theorem cons_ends (hl : Laws Collector.operations I N) (hi : I u.machine S)
    (hu : u.poisoned = false) {car cdr : Value} (hcar : car.Within S) (hcdr : cdr.Within S) :
    Ends (cons car cdr) u (Paired I N u S car cdr) (Stops u 2) := by
  rw [cons_eq]
  exact .step (check_run hu) ((fetched_ends hl hi hu hcar hcdr).bind fun _ _ h => h.pairs hl)

/-! ## Copies -/

theorem duplicate_immediate {v : Value} (hv : v.ref? = none) : duplicate v u = .ok v u := by
  rw [duplicate, hv]
  rfl

/-- The result `v` refers to a copy of what the object `src` has become. -/
def Duplicated (I : Machine Collector → (Nat → Prop) → Prop)
    (N : Machine Collector → Nat → Nat → Prop) (u : Mutator) (S : Nat → Prop)
    (src : Nat) (v : Value) (u' : Mutator) : Prop :=
  u'.poisoned = false ∧ Roots.parking u.machine.roots.stack.size
    u.machine.roots.capacity 1 = .ok () ∧
    ∃ ρ S' k o, v = .ofRef o ∧ k ≤ 3 ∧
      Made I N (u.machine.Live [.ofRef src]) u.machine u'.machine S S' ρ k o
        (u.machine.heap.payload src) ∧
      ∀ i, i < u.machine.heap.payload src → u'.machine.heap.word (o + i) =
        u'.machine.heap.word (ρ src + i)

/-- What was fetched for a copy of the object `src`: that object under its new address, and the new
one. -/
def Gathered (I : Machine Collector → (Nat → Prop) → Prop)
    (N : Machine Collector → Nat → Nat → Prop) (u : Mutator) (S : Nat → Prop)
    (src : Nat)
    (r : Value × Nat) (u' : Mutator) : Prop :=
  u'.poisoned = false ∧ Roots.parking u.machine.roots.stack.size
    u.machine.roots.capacity 1 = .ok () ∧
    ∃ ρ S' k, k ≤ 3 ∧ Made I N (u.machine.Live [.ofRef src]) u.machine u'.machine S S' ρ k r.2
      (u.machine.heap.payload src) ∧
      u'.machine.heap.word r.2 = 0 ∧ r.1 = (Value.ofRef src).rename ρ

theorem gathered_ends (hl : Laws Collector.operations I N) (hi : I u.machine S)
    (hu : u.poisoned = false) {src : Nat} (hv : (Value.ofRef src).Within S)
    (hsrc : (Value.ofRef src).ref? = some src) :
    Ends (keeping (.ofRef src) (allocateWords (u.machine.heap.payload src))) u
    (Gathered I N u S src) (Stops u 1) := by
  obtain ⟨-, hS⟩ := hv src hsrc
  have hap := hl.apart hi
  have hpos := Arena.payload_pos (hap.closed.known src hS)
  -- what is known of the new object while the old one is parked
  let P : Nat → Machine Collector → (Nat → Prop) → (Nat → Nat) → Prop := fun o m S' ρ => S' o ∧
    N m o (u.machine.heap.payload src) ∧ m.heap.word o = 0 ∧ ∀ x, u.machine.Live
      [.ofRef src] x → ρ x ≠ o
  have hops : ∀ v ∈ [Value.ofRef src], v.Within S := by simpa using hv
  have hcl : Closed u.machine.heap (u.machine.Live [.ofRef src]) :=
    Machine.closed_live hap.closed (hl.roots hi) hops
  have hlive : (u.machine.roots.withParked (.ofRef src)).Within (u.machine.Live [.ofRef src]) :=
    (Machine.roots_live (hl.roots hi)).push (Machine.within_live (by simp) hv) _
  refine (keeping_ends (n := 0) (K := 3) (P := P) (L := u.machine.Live [.ofRef src]) hl hi hv
    (fun r h => ⟨h.1, hl.new_congr h.2.1 rfl rfl, h.2.2⟩) fun hi₁ => ?_).mono ?_
  · refine (allocateWords_parked hl hi₁ hu hpos (hl.payload_lt hi hS)
      (fun x hx => hx.withParked.reachable) hcl hlive).mono ?_
    rintro o u' ⟨hu', hpark, ρ, S', k, hk, hmv, ho, hN, hz, hne⟩
    exact ⟨hu', hpark, ρ, S', k, hk, hmv, ho, hN, hz 0 (by omega), hne⟩
  · rintro ⟨v', o⟩ u' ⟨hu', hpark, ρ, S', k, hk, hmv, ⟨ho, hN, hz, hne⟩, rfl, -⟩
    exact ⟨hu', hpark, ρ, S', k, hk, ⟨hmv, ho, hN, hne⟩, hz, rfl⟩

/-- Writes `words` words of the object that `v` refers to into a new one. -/
def fillCopy (words : Nat) (v : Value) (copy : Nat) : MutatorM Value := do
  match v.ref? with
  | none => return v
  | some src =>
    copyWords src copy words
    guarded (Collector.noteCopy copy)
    return .ofRef copy

theorem duplicate_eq {v : Value} {src : Nat} (hsrc : v.ref? = some src) : duplicate v = (do
    check
    let words ← payloadWords src
    let (v, copy) ← keeping v (allocateWords words)
    fillCopy words v copy) := by
  rw [duplicate, hsrc]
  rfl

/-- Once everything was fetched, the copy is made. -/
theorem Gathered.copies (hl : Laws Collector.operations I N) {src : Nat} {r : Value × Nat}
    {u' : Mutator} (hsrc : (Value.ofRef src).ref? = some src) (h : Gathered I N u S src r u')
    {E : Fault → Mutator → Prop} :
    Ends (fillCopy (u.machine.heap.payload src) r.1 r.2) u' (Duplicated I N u S src) E := by
  obtain ⟨v', o⟩ := r
  obtain ⟨hu', hpark, ρ, S', k, hk, ⟨hmv, ho, hN, hne⟩, hz, rfl⟩ := h
  have hsrcL : u.machine.Live [.ofRef src] src := .root (.inr ⟨_, by simp, hsrc⟩)
  have hSsrc := hmv.kept src hsrcL
  have hpay := hmv.renamed.payload hmv.closed hsrcL
  have hsne := hne src hsrcL
  have hren : (Value.ofRef src).rename ρ = .ofRef (ρ src) := Value.rename_of_ref hsrc
  have href : ((Value.ofRef src).rename ρ).ref? = some (ρ src) := by
    rw [hren]
    exact hl.ref?_ofRef hmv.inv hSsrc
  unfold fillCopy
  rw [href]
  have hap' := hl.apart hmv.inv
  have hin := hl.new_inside hmv.inv ho hN
  have hsin := hap'.inside _ hSsrc
  simp only at hin hz
  have hsucc : u'.machine.heap.succ o = [] := by
    rw [Arena.succ, Arena.fields_of_not_pair (by rw [Arena.tag_of_zero hz]; decide)]
    rfl
  obtain ⟨m2, hnote, hi2, hN2, hother, hcopy, hroots, hstats, hstress⟩ :=
    hl.noteCopy hmv.inv ho hN hsucc hSsrc hsne hpay
  have e1 : copyWords (ρ src) o (u.machine.heap.payload src) u'.machine.heap
      = .ok () (u'.machine.heap.copy (ρ src) o (u.machine.heap.payload src)) :=
        copyWords_run (by omega) hin
  refine .step (heap_lift e1) (.step (guarded_run hnote) (.pure ?_))
  refine ⟨hu', hpark, ρ, S', k, o, rfl, hk, ⟨hmv.after hi2 (fun x i hx hlt => ?_) hroots hstress
    (by rw [Mutator.withMachine_machine, hstats]), ho, hN2, hne⟩, fun i hlt => ?_⟩
  · exact hother _ i (hmv.kept x hx) (hne x hx) hlt
  · rw [Mutator.withMachine_machine, hcopy i hlt, hother _ i hSsrc hsne (by omega)]

/-- The size of an object that may be used. -/
theorem payloadWords_lift (hl : Laws Collector.operations I N) (hi : I u.machine S)
    {src : Nat} (hS : S src) :
    (liftM (payloadWords src) : MutatorM Nat) u = .ok (u.machine.heap.payload src) u := by
  have hin := (hl.apart hi).inside src hS
  have hk := (hl.apart hi).closed.known src hS
  have hpos := Arena.payload_pos hk
  exact read_lift (payloadWords_run (by omega) hk)

theorem duplicate_ends (hl : Laws Collector.operations I N) (hi : I u.machine S)
    (hu : u.poisoned = false) {v : Value} {src : Nat} (hv : v.Within S) (hsrc : v.ref? = some src) :
    Ends (duplicate v) u (Duplicated I N u S src) (Stops u 1) := by
  obtain ⟨rfl, hS⟩ := hv src hsrc
  rw [duplicate_eq hsrc]
  refine .step (check_run hu) (.step (payloadWords_lift hl hi hS) ?_)
  exact (gathered_ends hl hi hu hv hsrc).bind fun _ _ h => h.copies hl hsrc

end MutatorM

end Made

end Reclaim
