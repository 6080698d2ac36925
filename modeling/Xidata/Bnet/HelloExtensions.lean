import Xidata.Bnet.Session
import Xidata.Eosiolib.Datastream

/-!
The extensions that follow a hello.  Each comes with its size, and is read through a stream of
its own that begins where the size ends.  The size is not compared with what is left of the
message: such a stream may reach behind the buffer, where the memory holds something else, and
so may the position that the next extension is looked for at.  Addresses are numbers; the
streams are those of the chain's library.
-/

namespace Xidata.Bnet

abbrev Memory := ℕ → UInt8

/-- The bytes that were received. -/
structure Buffer where
  start : ℕ
  fin : ℕ
  start_le : start ≤ fin
  fin_lt : fin < 2 ^ 64

/-- A stream over memory; the position may come to lie behind the end. -/
structure Datastream where
  pos : ℕ
  fin : ℕ
  deriving DecidableEq

namespace Datastream

/-- The end less the position, as an unsigned number. -/
def remaining (ds : Datastream) : UInt64 := .ofNat ds.fin - .ofNat ds.pos

def skip (ds : Datastream) (size : UInt32) : Datastream := { ds with pos := ds.pos + size.toNat }

/-- What a checked read can get at: nothing from the end on. -/
def bytes (memory : Memory) (ds : Datastream) : List UInt8 :=
  (List.range' ds.pos (ds.fin - ds.pos)).map memory

end Datastream

/-- The value and the number of bytes that it took, or nothing where a read throws. -/
abbrev UnpackUnsignedInt := List UInt8 → Option (UInt32 × ℕ)

/-- A value takes at least one byte, and no byte but those before the end. -/
def ChecksReads (unpack : UnpackUnsignedInt) : Prop :=
  ∀ bytes v n, unpack bytes = some (v, n) → 0 < n ∧ n ≤ bytes.length

/-- How far the loop has come, with the streams it has made, the positions it has been at and
the tags it has read. -/
structure Parse where
  ds : Datastream
  subStreams : List Datastream := []
  positions : List ℕ := []
  tags : List ℕ := []
  remoteRequestIrreversibleOnly : Bool := false
  thrown : Bool := false

section Loop

variable (unpack : UnpackUnsignedInt) (memory : Memory)

def unpackFrom (ds : Datastream) : Option (UInt32 × Datastream) :=
  (unpack (ds.bytes memory)).map fun r => (r.1, { ds with pos := ds.pos + r.2 })

/-- The number of types that `hello_extension` is a variant of; its tag for
`hello_extension_irreversible_only`, which has no fields, is zero. -/
def helloExtensionCount : UInt32 := 1

/-- A variant is its tag, which has to be one of a type, and then the fields of that type. -/
def unpackHelloExtension (ds : Datastream) : Option UInt32 :=
  match unpackFrom unpack memory ds with
  | none => none
  | some (tag, _) => if tag < helloExtensionCount then some tag else none

/-- One pass of the loop. -/
def Parse.pass (p : Parse) : Parse :=
  match unpackFrom unpack memory p.ds with
  | none => { p with thrown := true }
  | some (size, ds) =>
    let exStart := ds.pos
    let dsw : Datastream := ⟨exStart, exStart + size.toNat⟩
    let p := { p with
      ds := ds
      positions := p.positions ++ [ds.pos]
      subStreams := p.subStreams ++ [dsw] }
    let next (p : Parse) : Parse := { p with
      ds := ds.skip size
      positions := p.positions ++ [(ds.skip size).pos] }
    match unpackFrom unpack memory dsw with
    | none => { p with thrown := true }
    | some (wich, _) =>
      let p := { p with tags := p.tags ++ [wich.toNat] }
      if wich < helloExtensionCount then
        let dsx : Datastream := ⟨exStart, exStart + size.toNat⟩
        let p := { p with subStreams := p.subStreams ++ [dsx] }
        match unpackHelloExtension unpack memory dsx with
        | none => { p with thrown := true }
        | some ex =>
          next (if ex = 0 then { p with remoteRequestIrreversibleOnly := true } else p)
      else next p

/-- The loop, if it ends within so many passes. -/
def Parse.readExtensions : ℕ → Parse → Option Parse
  | 0, _ => none
  | passes + 1, p =>
    if p.thrown ∨ ¬0 < p.ds.remaining then some p
    else readExtensions passes (p.pass unpack memory)

end Loop

/-- The loop over what was received. -/
def Parse.ofBuffer (b : Buffer) : Parse := { ds := ⟨b.start, b.fin⟩ }

/-! ### Inside the buffer -/

/-- Every stream and every position lies in the buffer, and a size that is larger than what is
left of the buffer is rejected. -/
structure Parse.ReadsWithin (b : Buffer) (p : Parse) : Prop where
  subStreams : ∀ sub ∈ p.subStreams, b.start ≤ sub.pos ∧ sub.fin ≤ b.fin
  positions : ∀ pos ∈ p.positions, pos ≤ b.fin
  rejected : ∀ sub ∈ p.subStreams, b.fin < sub.fin → p.thrown = true

/-- No size is larger than what follows it, up to the first size or tag that is incomplete. -/
inductive SizesFit (unpack : UnpackUnsignedInt) : List UInt8 → Prop
  | noSize {bytes : List UInt8} (hsize : unpack bytes = none) : SizesFit unpack bytes
  | noTag {bytes : List UInt8} {size : UInt32} {n : ℕ} (hsize : unpack bytes = some (size, n))
      (hfits : n + size.toNat ≤ bytes.length)
      (htag : unpack ((bytes.drop n).take size.toNat) = none) : SizesFit unpack bytes
  | extension {bytes : List UInt8} {size tag : UInt32} {n m : ℕ}
      (hsize : unpack bytes = some (size, n)) (hfits : n + size.toNat ≤ bytes.length)
      (htag : unpack ((bytes.drop n).take size.toNat) = some (tag, m))
      (hrest : SizesFit unpack (bytes.drop (n + size.toNat))) : SizesFit unpack bytes

variable {unpack : UnpackUnsignedInt} {memory : Memory} {p p' : Parse} {b : Buffer}

/-! ### One pass -/

theorem unpackFrom_eq_none {ds : Datastream} :
    unpackFrom unpack memory ds = none ↔ unpack (ds.bytes memory) = none := by
  rw [unpackFrom, Option.map_eq_none_iff]

theorem unpackFrom_eq_some {ds ds' : Datastream} {v : UInt32} :
    unpackFrom unpack memory ds = some (v, ds') ↔
      ∃ n, unpack (ds.bytes memory) = some (v, n) ∧ ds' = { ds with pos := ds.pos + n } := by
  rw [unpackFrom, Option.map_eq_some_iff]
  constructor
  · rintro ⟨⟨v', n⟩, h, heq⟩
    cases heq
    exact ⟨n, h, rfl⟩
  · rintro ⟨n, h, rfl⟩
    exact ⟨(v, n), h, rfl⟩

/-- The stream of an extension whose size takes `n` bytes. -/
def Parse.subStream (p : Parse) (n : ℕ) (size : UInt32) : Datastream :=
  ⟨p.ds.pos + n, p.ds.pos + n + size.toNat⟩

@[simp] theorem Parse.subStream_pos (p : Parse) (n : ℕ) (size : UInt32) :
    (p.subStream n size).pos = p.ds.pos + n := rfl

@[simp] theorem Parse.subStream_fin (p : Parse) (n : ℕ) (size : UInt32) :
    (p.subStream n size).fin = p.ds.pos + n + size.toNat := rfl

/-- What a pass can do. -/
inductive Parse.Passes (unpack : UnpackUnsignedInt) (memory : Memory) (p : Parse) : Parse → Prop
  | noSize (hsize : unpack (p.ds.bytes memory) = none) :
      Passes unpack memory p { p with thrown := true }
  | noTag {size : UInt32} {n : ℕ} (hsize : unpack (p.ds.bytes memory) = some (size, n))
      (htag : unpack ((p.subStream n size).bytes memory) = none) :
      Passes unpack memory p { p with
        ds := { p.ds with pos := p.ds.pos + n }
        positions := p.positions ++ [p.ds.pos + n]
        subStreams := p.subStreams ++ [p.subStream n size]
        thrown := true }
  | extension {size tag : UInt32} {n m : ℕ} (subs : List Datastream)
      (hsize : unpack (p.ds.bytes memory) = some (size, n))
      (htag : unpack ((p.subStream n size).bytes memory) = some (tag, m))
      (hsubs : subs ≠ [] ∧ ∀ sub ∈ subs, sub = p.subStream n size) :
      Passes unpack memory p { p with
        ds := { p.ds with pos := p.ds.pos + n + size.toNat }
        positions := p.positions ++ [p.ds.pos + n, p.ds.pos + n + size.toNat]
        subStreams := p.subStreams ++ subs
        tags := p.tags ++ [tag.toNat]
        remoteRequestIrreversibleOnly := p.remoteRequestIrreversibleOnly || tag.toNat = 0 }

/-- The tag of a type is read again. -/
theorem unpackHelloExtension_eq {ds ds' : Datastream} {tag : UInt32}
    (htag : unpackFrom unpack memory ds = some (tag, ds')) (hknown : tag < helloExtensionCount) :
    unpackHelloExtension unpack memory ds = some 0 := by
  have hzero : tag = 0 := by
    have hlt : tag.toNat < 1 := hknown
    exact UInt32.toNat_inj.mp (by simpa using hlt)
  rw [unpackHelloExtension, htag]
  dsimp only
  rw [if_pos hknown, hzero]

theorem Parse.passes_pass (p : Parse) : Passes unpack memory p (p.pass unpack memory) := by
  unfold Parse.pass
  cases hfirst : unpackFrom unpack memory p.ds with
  | none => exact .noSize (unpackFrom_eq_none.mp hfirst)
  | some r =>
      obtain ⟨size, ds⟩ := r
      obtain ⟨n, hsize, rfl⟩ := unpackFrom_eq_some.mp hfirst
      dsimp only
      cases htag : unpackFrom unpack memory ⟨p.ds.pos + n, p.ds.pos + n + size.toNat⟩ with
      | none => exact .noTag hsize (unpackFrom_eq_none.mp htag)
      | some r =>
          obtain ⟨tag, ds⟩ := r
          dsimp only
          obtain ⟨m, hread, -⟩ := unpackFrom_eq_some.mp htag
          by_cases hknown : tag < helloExtensionCount
          · have hzero : tag.toNat = 0 := Nat.lt_one_iff.mp hknown
            rw [if_pos hknown, unpackHelloExtension_eq htag hknown]
            have hpass := Passes.extension (p := p)
              [p.subStream n size, p.subStream n size] hsize hread (by simp)
            simpa [hzero, Datastream.skip, Parse.subStream] using hpass
          · have hzero : tag.toNat ≠ 0 := by
              intro h
              exact hknown (UInt32.lt_iff_toNat_lt.mpr (h ▸ Nat.zero_lt_one))
            rw [if_neg hknown]
            have hpass := Passes.extension (p := p) [p.subStream n size] hsize hread (by simp)
            simpa [hzero, Datastream.skip, Parse.subStream] using hpass

/-! ### The end of the loop -/

theorem Datastream.length_bytes (memory : Memory) (ds : Datastream) :
    (ds.bytes memory).length = ds.fin - ds.pos := by
  rw [bytes, List.length_map, List.length_range']

theorem Datastream.bytes_eq_nil {ds : Datastream} (h : ds.fin ≤ ds.pos) : ds.bytes memory = [] :=
  List.eq_nil_of_length_eq_zero (by rw [length_bytes, Nat.sub_eq_zero_of_le h])

theorem ChecksReads.nil (h : ChecksReads unpack) : unpack [] = none := by
  rw [Option.eq_none_iff_forall_ne_some]
  rintro ⟨v, n⟩ hsome
  obtain ⟨hpos, hle⟩ := h [] v n hsome
  rw [List.length_nil] at hle
  omega

theorem readExtensions_stop (h : p.thrown ∨ ¬0 < p.ds.remaining) (passes : ℕ) :
    Parse.readExtensions unpack memory (passes + 1) p = some p := if_pos h

theorem readExtensions_step (hthrown : p.thrown = false) (hmore : 0 < p.ds.remaining)
    (passes : ℕ) : Parse.readExtensions unpack memory (passes + 1) p =
      Parse.readExtensions unpack memory passes (p.pass unpack memory) :=
  if_neg (by simp [hthrown, hmore])

theorem Parse.Passes.fin_eq (h : Passes unpack memory p p') : p'.ds.fin = p.ds.fin := by
  cases h <;> rfl

/-- A pass that does not throw comes nearer to the end. -/
theorem Parse.Passes.pos_lt (hunpack : ChecksReads unpack) (h : Passes unpack memory p p')
    (hthrown : p'.thrown = false) : p.ds.pos < p.ds.fin ∧ p.ds.pos < p'.ds.pos := by
  cases h with
  | noSize => cases hthrown
  | noTag => cases hthrown
  | extension subs hsize =>
      obtain ⟨hpos, hle⟩ := hunpack _ _ _ hsize
      rw [Datastream.length_bytes] at hle
      dsimp only
      omega

theorem readExtensions_ends (hunpack : ChecksReads unpack) (memory : Memory) (p : Parse) :
    ∃ passes p', Parse.readExtensions unpack memory passes p = some p' := by
  induction hk : p.ds.fin - p.ds.pos using Nat.strong_induction_on generalizing p with
  | h k ih =>
      by_cases hstop : p.thrown ∨ ¬0 < p.ds.remaining
      · exact ⟨1, p, readExtensions_stop hstop 0⟩
      obtain ⟨hthrown, hmore⟩ := not_or.mp hstop
      have hstep (passes : ℕ) : Parse.readExtensions unpack memory (passes + 1) p =
          Parse.readExtensions unpack memory passes (p.pass unpack memory) :=
        readExtensions_step (Bool.not_eq_true _ ▸ hthrown) (not_not.mp hmore) passes
      have hpass : Parse.Passes unpack memory p (p.pass unpack memory) := p.passes_pass
      by_cases hthrown' : (p.pass unpack memory).thrown = true
      · exact ⟨2, _, (hstep 1).trans (readExtensions_stop (.inl hthrown') 0)⟩
      · obtain ⟨hlt, hlt'⟩ := hpass.pos_lt hunpack (Bool.not_eq_true _ ▸ hthrown')
        have hfin := hpass.fin_eq
        obtain ⟨passes, p', hend⟩ := ih _ (by omega) (p.pass unpack memory) rfl
        exact ⟨passes + 1, p', (hstep passes).trans hend⟩

/-! ### What the bytes decide -/

theorem Datastream.bytes_advance (ds : Datastream) (n : ℕ) :
    ({ ds with pos := ds.pos + n } : Datastream).bytes memory = (ds.bytes memory).drop n := by
  rw [bytes, bytes, ← List.map_drop, List.drop_range', Nat.sub_add_eq]
  simp

theorem Parse.bytes_subStream {n : ℕ} {size : UInt32}
    (hfits : n + size.toNat ≤ (p.ds.bytes memory).length) :
    (p.subStream n size).bytes memory = ((p.ds.bytes memory).drop n).take size.toNat := by
  rw [Datastream.length_bytes] at hfits
  rw [Datastream.bytes, Datastream.bytes, ← List.map_drop, ← List.map_take, List.drop_range',
    List.take_range'_of_length_ge (by omega), subStream, Nat.mul_one, Nat.add_sub_cancel_left]

theorem SizesFit.of_fits {bytes : List UInt8} {size : UInt32} {n : ℕ}
    (hsize : unpack bytes = some (size, n)) (h : SizesFit unpack bytes) :
    n + size.toNat ≤ bytes.length := by
  cases h with
  | noSize hnone => rw [hnone] at hsize; cases hsize
  | noTag hsize' hfits => rw [hsize] at hsize'; cases hsize'; exact hfits
  | extension hsize' hfits => rw [hsize] at hsize'; cases hsize'; exact hfits

theorem SizesFit.extension_iff {bytes : List UInt8} {size tag : UInt32} {n m : ℕ}
    (hsize : unpack bytes = some (size, n)) (hfits : n + size.toNat ≤ bytes.length)
    (htag : unpack ((bytes.drop n).take size.toNat) = some (tag, m)) :
    SizesFit unpack bytes ↔ SizesFit unpack (bytes.drop (n + size.toNat)) := by
  constructor
  · intro h
    cases h with
    | noSize hnone => rw [hnone] at hsize; cases hsize
    | noTag hsize' _ hnone =>
        rw [hsize] at hsize'
        cases hsize'
        rw [hnone] at htag
        cases htag
    | extension hsize' _ _ hrest =>
        rw [hsize] at hsize'
        cases hsize'
        exact hrest
  · exact .extension hsize hfits htag

theorem Datastream.remaining_pos_iff {ds : Datastream} (hfin : ds.fin < 2 ^ 64)
    (hpos : ds.pos ≤ ds.fin + 2 ^ 32) : 0 < ds.remaining ↔ ds.pos ≠ ds.fin := by
  rw [remaining, UInt64.lt_iff_toNat_lt, UInt64.toNat_sub, UInt64.toNat_ofNat',
    UInt64.toNat_ofNat']
  change 0 < _ ↔ _
  omega

/-! ### Runs -/

namespace Parse

def Inside (b : Buffer) (p : Parse) : Prop :=
  (∀ sub ∈ p.subStreams, b.start ≤ sub.pos ∧ sub.fin ≤ b.fin) ∧ ∀ pos ∈ p.positions, pos ≤ b.fin

/-- The loop goes on, and has read nothing but the buffer. -/
structure Going (b : Buffer) (p : Parse) : Prop where
  fin : p.ds.fin = b.fin
  start_le : b.start ≤ p.ds.pos
  pos_le : p.ds.pos ≤ b.fin
  thrown : p.thrown = false
  inside : p.Inside b

theorem Passes.subset (h : Passes unpack memory p p') : p.subStreams ⊆ p'.subStreams := by
  cases h with
  | noSize => exact List.Subset.refl _
  | noTag => exact List.subset_append_left _ _
  | extension => exact List.subset_append_left _ _

theorem readExtensions_subset {passes : ℕ} (h : readExtensions unpack memory passes p = some p') :
    p.subStreams ⊆ p'.subStreams := by
  induction passes generalizing p with
  | zero => cases h
  | succ passes ih =>
      rw [readExtensions] at h
      split at h
      · cases h
        exact List.Subset.refl _
      · exact List.Subset.trans p.passes_pass.subset (ih h)

theorem readExtensions_of_thrown {passes : ℕ} (hthrown : p.thrown = true)
    (h : readExtensions unpack memory passes p = some p') : p' = p := by
  cases passes with
  | zero => cases h
  | succ passes =>
      rw [readExtensions_stop (.inl hthrown)] at h
      exact (Option.some.inj h).symm

theorem Inside.concat (h : p.Inside b) {subs : List Datastream} {positions : List ℕ}
    (hsubs : ∀ sub ∈ subs, b.start ≤ sub.pos ∧ sub.fin ≤ b.fin)
    (hpositions : ∀ pos ∈ positions, pos ≤ b.fin) {q : Parse}
    (hq : q.subStreams = p.subStreams ++ subs) (hq' : q.positions = p.positions ++ positions) :
    q.Inside b := by
  rw [Inside, hq, hq']
  constructor
  · intro sub hsub
    exact (List.mem_append.mp hsub).elim (h.1 sub) (hsubs sub)
  · intro pos hpos
    exact (List.mem_append.mp hpos).elim (h.2 pos) (hpositions pos)

/-- From where the loop goes on, it stays inside exactly if the sizes fit. -/
theorem inside_iff (hunpack : ChecksReads unpack) {passes : ℕ} (hp : Going b p)
    (h : readExtensions unpack memory passes p = some p') :
    p'.Inside b ↔ SizesFit unpack (p.ds.bytes memory) := by
  induction passes generalizing p with
  | zero => cases h
  | succ passes ih =>
      obtain ⟨hfin, hstart, hle, hthrown, hinside⟩ := hp
      have hlength := p.ds.length_bytes memory
      by_cases hmore : 0 < p.ds.remaining
      swap
      · -- Nothing is left.
        rw [readExtensions_stop (.inr hmore)] at h
        obtain rfl := Option.some.inj h
        have hend : p.ds.fin ≤ p.ds.pos := by
          rw [Datastream.remaining_pos_iff (hfin ▸ b.fin_lt) (by omega), not_not] at hmore
          exact hmore.ge
        rw [Datastream.bytes_eq_nil hend]
        exact iff_of_true hinside (.noSize hunpack.nil)
      rw [readExtensions_step hthrown hmore] at h
      have hpass : Passes unpack memory p (p.pass unpack memory) := p.passes_pass
      generalize p.pass unpack memory = q at h hpass
      cases hpass with
      | noSize hsize =>
          obtain rfl := readExtensions_of_thrown rfl h
          exact iff_of_true hinside (.noSize hsize)
      | @noTag size n hsize htag =>
          obtain rfl := readExtensions_of_thrown rfl h
          obtain ⟨hpos, hn⟩ := hunpack _ _ _ hsize
          by_cases hfits : n + size.toNat ≤ (p.ds.bytes memory).length
          · refine iff_of_true (hinside.concat (fun sub hsub => ?_) (fun pos hpos => ?_) rfl rfl) ?_
            · rw [List.mem_singleton.mp hsub, subStream_pos, subStream_fin]
              omega
            · rw [List.mem_singleton.mp hpos]
              omega
            · rw [bytes_subStream hfits] at htag
              exact .noTag hsize hfits htag
          · refine iff_of_false (fun hq => hfits ?_) fun hq => hfits (hq.of_fits hsize)
            have hsub := hq.1 (p.subStream n size) (by simp)
            rw [subStream_pos, subStream_fin] at hsub
            omega
      | @extension size tag n m subs hsize htag hsubs =>
          obtain ⟨hpos, hn⟩ := hunpack _ _ _ hsize
          by_cases hfits : n + size.toNat ≤ (p.ds.bytes memory).length
          · rw [bytes_subStream hfits] at htag
            refine (ih ⟨?_, ?_, ?_, ?_, ?_⟩ h).trans ?_
            · exact hfin
            · dsimp only
              omega
            · dsimp only
              omega
            · exact hthrown
            · refine hinside.concat (fun sub hsub => ?_) (fun pos hpos => ?_) rfl rfl
              · rw [hsubs.2 sub hsub, subStream_pos, subStream_fin]
                omega
              · simp only [List.mem_cons, List.not_mem_nil, or_false] at hpos
                omega
            · rw [SizesFit.extension_iff hsize hfits htag, ← Datastream.bytes_advance,
                ← Nat.add_assoc]
          · refine iff_of_false (fun hq => hfits ?_) fun hq => hfits (hq.of_fits hsize)
            obtain ⟨sub, hmem⟩ := List.exists_mem_of_ne_nil subs hsubs.1
            have hsub := hq.1 sub (readExtensions_subset h (List.mem_append_right _ hmem))
            rw [hsubs.2 sub hmem, subStream_pos, subStream_fin] at hsub
            omega

/-- Behind the buffer lies a stream only if the loop has thrown, or is behind it itself. -/
structure Bounded (b : Buffer) (p : Parse) : Prop where
  fin : p.ds.fin = b.fin
  pos_le : p.ds.pos ≤ b.fin + 2 ^ 32
  late : ∀ sub ∈ p.subStreams, b.fin < sub.fin → p.thrown = true ∨ b.fin < p.ds.pos

theorem Bounded.passes (hunpack : ChecksReads unpack) (hp : Bounded b p)
    (h : Passes unpack memory p p') (hthrown : p.thrown = false) : Bounded b p' := by
  have hlength := p.ds.length_bytes memory
  have hfin := hp.fin
  cases h with
  | noSize => exact ⟨hp.fin, hp.pos_le, fun _ _ _ => .inl rfl⟩
  | noTag hsize =>
      obtain ⟨hpos, hn⟩ := hunpack _ _ _ hsize
      exact ⟨hp.fin, by dsimp only; omega, fun _ _ _ => .inl rfl⟩
  | @extension size tag n m subs hsize htag hsubs =>
      obtain ⟨hpos, hn⟩ := hunpack _ _ _ hsize
      have hsize := size.toNat_lt
      refine ⟨hp.fin, by dsimp only; omega, fun sub hsub hlate => .inr ?_⟩
      obtain hsub | hsub := List.mem_append.mp hsub
      · -- The position is not behind the buffer, since a size has been read there.
        obtain hbefore | hbefore := hp.late sub hsub hlate
        · rw [hthrown] at hbefore
          cases hbefore
        · omega
      · rw [hsubs.2 sub hsub, subStream_fin] at hlate
        exact hlate

theorem Bounded.rejects (hunpack : ChecksReads unpack) {passes : ℕ} (hp : Bounded b p)
    (h : readExtensions unpack memory passes p = some p') :
    ∀ sub ∈ p'.subStreams, b.fin < sub.fin → p'.thrown = true := by
  induction passes generalizing p with
  | zero => cases h
  | succ passes ih =>
      by_cases hthrown : p.thrown = true
      · obtain rfl := readExtensions_of_thrown hthrown h
        exact fun _ _ _ => hthrown
      have hgoing : p.thrown = false := Bool.not_eq_true _ ▸ hthrown
      by_cases hmore : 0 < p.ds.remaining
      · rw [readExtensions_step hgoing hmore] at h
        exact ih (hp.passes hunpack p.passes_pass hgoing) h
      · rw [readExtensions_stop (.inr hmore)] at h
        obtain rfl := Option.some.inj h
        rw [Datastream.remaining_pos_iff (hp.fin ▸ b.fin_lt) (hp.fin ▸ hp.pos_le), not_not] at hmore
        intro sub hsub hlate
        have hpos := (hp.late sub hsub hlate).resolve_left hthrown
        have hfin := hp.fin
        omega

theorem irreversibleOnly_of_readExtensions {passes : ℕ}
    (hflag : p.remoteRequestIrreversibleOnly = decide (0 ∈ p.tags))
    (h : readExtensions unpack memory passes p = some p') :
    p'.remoteRequestIrreversibleOnly = decide (0 ∈ p'.tags) := by
  induction passes generalizing p with
  | zero => cases h
  | succ passes ih =>
      rw [readExtensions] at h
      split at h
      · cases h
        exact hflag
      · refine ih ?_ h
        have hpass : Passes unpack memory p (p.pass unpack memory) := p.passes_pass
        generalize p.pass unpack memory = q at hpass
        cases hpass with
        | noSize => exact hflag
        | noTag => exact hflag
        | extension =>
            dsimp only
            rw [hflag, ← Bool.decide_or]
            simp [eq_comm]

end Parse

theorem Session.Marked.irreversibleOnly_eq {s s' : Session} (h : s.Marked s') :
    s'.remoteRequestIrreversibleOnly = s.remoteRequestIrreversibleOnly := by
  obtain ⟨_, _, rfl⟩ := h
  rfl

/-- A session that takes the hello with the tags that the loop has read gets the flag that the
loop has set. -/
theorem onHello_irreversibleOnly {passes : ℕ} {ext : Externals} {s : Session} {hi : Hello}
    (hend : Parse.readExtensions unpack memory passes (.ofBuffer b) = some p)
    (hversion : "1.0.1" ≤ hi.protocolVersion) (hflag : s.remoteRequestIrreversibleOnly = false)
    (hchain : hi.chainId = ext.chainId) (hpeer : hi.peerId ≠ ext.localPeerId) :
    (s.onHello ext hi p.tags).remoteRequestIrreversibleOnly =
      p.remoteRequestIrreversibleOnly := by
  have hnew : ¬hi.protocolVersion ≤ "1.0.0" := fun hold =>
    absurd (String.le_trans hversion hold) (by decide)
  have htags := Parse.irreversibleOnly_of_readExtensions (p := .ofBuffer b) rfl hend
  unfold Session.onHello
  dsimp only
  rw [if_neg (not_not_intro hchain), if_neg hpeer, if_neg fun h => hnew h.2, htags]
  refine (Session.marked_onBlockNotice ext _ hi.pendingBlockIds).irreversibleOnly_eq.trans ?_
  dsimp only
  split
  · rename_i h
    exact (decide_eq_true h.2).symm
  · rename_i h
    rw [hflag]
    exact (decide_eq_false fun hmem => h ⟨hversion, hmem⟩).symm

/-- The loop ends; and every stream and position of it lies in the buffer, and every size that
is too large is rejected, exactly if the sizes fit. -/
theorem readExtensions_within_iff (unpack : UnpackUnsignedInt) (hunpack : ChecksReads unpack)
    (memory : Memory) (b : Buffer) :
    ∃ passes p, Parse.readExtensions unpack memory passes (.ofBuffer b) = some p ∧
      (p.ReadsWithin b ↔ SizesFit unpack ((⟨b.start, b.fin⟩ : Datastream).bytes memory)) := by
  obtain ⟨passes, p, hend⟩ := readExtensions_ends hunpack memory (.ofBuffer b)
  have hnothing : Parse.Inside b (.ofBuffer b) := by
    constructor
    all_goals
      intro x hx
      cases hx
  have hgoing : Parse.Going b (.ofBuffer b) := ⟨rfl, le_rfl, b.start_le, rfl, hnothing⟩
  have hbounded : Parse.Bounded b (.ofBuffer b) :=
    ⟨rfl, Nat.le_add_right_of_le b.start_le, fun sub h _ => by cases h⟩
  have hinside := Parse.inside_iff hunpack hgoing hend
  refine ⟨passes, p, hend, ?_⟩
  constructor
  · intro h
    exact hinside.mp ⟨h.subStreams, h.positions⟩
  · intro h
    obtain ⟨hsubs, hpositions⟩ := hinside.mpr h
    exact ⟨hsubs, hpositions, hbounded.rejects hunpack hend⟩

/-! ### Numbers as the contracts read them -/

/-- The number as it is read by the library of the contracts, which has the same format. -/
def unpackUnsignedInt : UnpackUnsignedInt := fun bytes =>
  match Eosiolib.getUnsignedInt ⟨bytes, 0⟩ with
  | .ok (v, ds) => some (v.value, ds.pos)
  | .error _ => none

theorem getGroups_pos {v : UInt64} {shift : UInt8} {bytes : List UInt8} {pos : ℕ}
    {r : Eosiolib.UnsignedInt × Eosiolib.InStream}
    (h : Eosiolib.getGroups v shift bytes pos = .ok r) :
    pos < r.2.pos ∧ r.2.pos ≤ pos + bytes.length := by
  induction bytes generalizing v shift pos with
  | nil => cases h
  | cons byte bytes ih =>
      rw [Eosiolib.getGroups] at h
      rw [List.length_cons]
      split at h
      · have hrest := ih h
        omega
      · cases h
        dsimp only
        omega

theorem checksReads_unpackUnsignedInt : ChecksReads unpackUnsignedInt := by
  intro bytes v n h
  unfold unpackUnsignedInt at h
  split at h
  · rename_i value ds hread
    cases h
    have hpos := getGroups_pos hread
    dsimp only at hpos
    omega
  · cases h

/-- The memory that begins with some bytes, and holds zeros behind them. -/
def memoryOf (bytes : List UInt8) : Memory := fun pos => bytes.getD pos 0

/-- One extension with the tag alone. -/
theorem readExtensions_within_one :
    let b : Buffer := ⟨0, 2, by decide, by decide⟩
    ∃ passes p, Parse.readExtensions unpackUnsignedInt (memoryOf [1, 0]) passes (.ofBuffer b) =
      some p ∧ p.ReadsWithin b := by
  intro b
  obtain ⟨passes, p, hend, hiff⟩ := readExtensions_within_iff unpackUnsignedInt
    checksReads_unpackUnsignedInt (memoryOf [1, 0]) b
  have hsize : unpackUnsignedInt [1, 0] = some (1, 1) := by decide +kernel
  have htag : unpackUnsignedInt (([1, 0].drop 1).take 1) = some (0, 1) := by decide +kernel
  have hrest : SizesFit unpackUnsignedInt [] := .noSize (by decide +kernel)
  exact ⟨passes, p, hend, hiff.mpr (.extension hsize (by decide) htag hrest)⟩

/-- A message whose only byte after the hello is the size 1: the tag is read from behind the
buffer, and the peer is taken to ask for irreversible blocks only. -/
theorem size_without_extension :
    let b : Buffer := ⟨0, 1, by decide, by decide⟩
    (Parse.readExtensions unpackUnsignedInt (memoryOf [1]) 3 (.ofBuffer b)).map
        (fun p => (p.subStreams, p.positions, p.remoteRequestIrreversibleOnly, p.thrown)) =
      some ([⟨1, 2⟩, ⟨1, 2⟩], [1, 2], true, true) ∧
    ¬∀ passes p, Parse.readExtensions unpackUnsignedInt (memoryOf [1]) passes (.ofBuffer b) =
      some p → p.ReadsWithin b := by
  intro b
  have hrun : (Parse.readExtensions unpackUnsignedInt (memoryOf [1]) 3 (.ofBuffer b)).map
        (fun p => (p.subStreams, p.positions, p.remoteRequestIrreversibleOnly, p.thrown)) =
      some ([⟨1, 2⟩, ⟨1, 2⟩], [1, 2], true, true) := by decide +kernel
  refine ⟨hrun, fun h => ?_⟩
  obtain ⟨p, hend, heq⟩ := Option.map_eq_some_iff.mp hrun
  have hpositions : p.positions = [1, 2] := congrArg (fun r => r.2.1) heq
  have hle := (h 3 p hend).positions 2 (by simp [hpositions])
  exact absurd hle (by decide)

end Xidata.Bnet
