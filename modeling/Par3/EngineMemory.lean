import Par3.RegionKernels
import Par3.Foundations.Loops

/-!
# The memory of the engine

The engine works on flat buffers of words: the recovery blocks, and a scratch buffer for each
further worker. It reads and writes them through pointers. A kernel call is a step that replaces
the words of one or more rows by what the region kernel makes of them, each from its own old value.
-/

namespace Par3

open Interleaving

/-- A word of a buffer, also a pointer to it. -/
@[ext]
structure Address where
  buffer : ℕ
  offset : ℕ
deriving DecidableEq

namespace Address

/-- `pointer + words` -/
def plus (pointer : Address) (words : ℕ) : Address := ⟨pointer.buffer, pointer.offset + words⟩

@[simp] theorem plus_buffer (pointer : Address) (words : ℕ) :
    (pointer.plus words).buffer = pointer.buffer := rfl

@[simp] theorem plus_offset (pointer : Address) (words : ℕ) :
    (pointer.plus words).offset = pointer.offset + words := rfl

theorem plus_plus (pointer : Address) (words more : ℕ) :
    (pointer.plus words).plus more = pointer.plus (words + more) := by
  rw [plus, plus, plus, Nat.add_assoc]

/-- The address is one of the `len` words from the pointer on. -/
def within (address pointer : Address) (len : ℕ) : Prop :=
  address.buffer = pointer.buffer ∧ pointer.offset ≤ address.offset ∧
    address.offset < pointer.offset + len

instance instDecidableWithin (address pointer : Address) (len : ℕ) :
    Decidable (address.within pointer len) :=
  inferInstanceAs (Decidable (_ ∧ _ ∧ _))

theorem plus_sub {address pointer : Address} {len : ℕ} (inside : address.within pointer len) :
    pointer.plus (address.offset - pointer.offset) = address := by
  obtain ⟨buffer, lower, _⟩ := inside
  cases address
  simp only [plus, mk.injEq]
  exact ⟨buffer.symm, Nat.add_sub_of_le lower⟩

end Address

/-- The buffers with the words in them. -/
abbrev Memory := Address → Gf64

/-- The words from a pointer on. -/
def load (memory : Memory) (pointer : Address) : Words := fun i => memory (pointer.plus i)

/-- The first `len` words from a pointer on are replaced. -/
def store (memory : Memory) (pointer : Address) (words : Words) (len : ℕ) : Memory :=
  fun address =>
    if address.within pointer len then words (address.offset - pointer.offset) else memory address

/-- The first `len` words of each of `K` outputs are replaced. -/
def storeAll (memory : Memory) (outs : ℕ → Address) (words : ℕ → Words) (len K : ℕ) : Memory :=
  (List.range K).foldl (fun memory k => store memory (outs k) (words k) len) memory

/-! ## Kernel calls -/

/-- `memset(out, 0, len * sizeof(gf64_t))` -/
def memset (out : Address) (len : ℕ) : Step Address Gf64 :=
  fun memory => store memory out (fun _ => 0) len

/-- `gf64_region_muladd_arr(out, in, &coeff, len, 1)` -/
def muladd (out : Address) (input : Words) (coeff : Gf64) (len : ℕ) : Step Address Gf64 :=
  fun memory =>
    store memory out (gf64_region_muladd_arr (load memory out) input (fun _ => coeff) len 1) len

/-- `gf64_region_fused_output_muladd_arr(outs, in, coeffs, len, K)` -/
def fusedMuladd (outs : ℕ → Address) (input : Words) (coeffs : ℕ → Gf64) (len K : ℕ) :
    Step Address Gf64 :=
  fun memory =>
    storeAll memory outs
      (gf64_region_fused_output_muladd_arr (fun k => load memory (outs k)) input coeffs len K) len K

/-- `gf64_region_2d_muladd_arr(outs, K, in_blocks, G, coeff, stride, len)` -/
def blockMuladd (outs : ℕ → Address) (K : ℕ) (in_blocks : ℕ → Words) (G : ℕ) (coeff : ℕ → Gf64)
    (K_stride len : ℕ) : Step Address Gf64 :=
  fun memory =>
    storeAll memory outs
      (gf64_region_2d_muladd_arr (fun k => load memory (outs k)) K in_blocks G coeff K_stride len)
      len K

/-! ## What a kernel call does to an address -/

theorem store_within (memory : Memory) {pointer address : Address} (words : Words) {len : ℕ}
    (inside : address.within pointer len) :
    store memory pointer words len address = words (address.offset - pointer.offset) :=
  if_pos inside

theorem store_outside (memory : Memory) {pointer address : Address} (words : Words) {len : ℕ}
    (outside : ¬ address.within pointer len) :
    store memory pointer words len address = memory address :=
  if_neg outside

theorem storeAll_succ (memory : Memory) (outs : ℕ → Address) (words : ℕ → Words) (len K : ℕ) :
    storeAll memory outs words len (K + 1) =
      store (storeAll memory outs words len K) (outs K) (words K) len := by
  rw [storeAll, List.range_succ, List.foldl_append, List.foldl_cons, List.foldl_nil]
  rfl

theorem storeAll_outside (memory : Memory) {outs : ℕ → Address} {address : Address}
    (words : ℕ → Words) {len K : ℕ} (outside : ∀ k < K, ¬ address.within (outs k) len) :
    storeAll memory outs words len K address = memory address := by
  induction K with
  | zero => rfl
  | succ K ih =>
    rw [storeAll_succ, store_outside _ _ (outside K (Nat.lt_succ_self K))]
    exact ih fun k below => outside k (Nat.lt_succ_of_lt below)

/-- An address that lies in one output only gets the word of that output. -/
theorem storeAll_within (memory : Memory) {outs : ℕ → Address} {address : Address}
    (words : ℕ → Words) {len K own : ℕ} (below : own < K) (inside : address.within (outs own) len)
    (alone : ∀ k < K, address.within (outs k) len → k = own) :
    storeAll memory outs words len K address = words own (address.offset - (outs own).offset) := by
  induction K with
  | zero => exact absurd below (Nat.not_lt_zero own)
  | succ K ih =>
    rw [storeAll_succ]
    by_cases last : own = K
    · subst last
      exact store_within _ _ inside
    · have elsewhere : ¬ address.within (outs K) len := fun here =>
        last (alone K (Nat.lt_succ_self K) here).symm
      rw [store_outside _ _ elsewhere]
      exact ih (by omega) fun k earlier => alone k (Nat.lt_succ_of_lt earlier)

section

variable {address : Address}

theorem memset_within {out : Address} {len : ℕ} (inside : address.within out len) :
    Acts [memset out len] address fun _ => 0 :=
  fun memory => store_within memory (fun _ => 0) inside

theorem memset_outside {out : Address} {len : ℕ} (outside : ¬ address.within out len) :
    Acts [memset out len] address id :=
  fun memory => store_outside memory (fun _ => 0) outside

theorem muladd_within {out : Address} (input : Words) (coeff : Gf64) {len : ℕ}
    (inside : address.within out len) :
    Acts [muladd out input coeff len] address
      (· + input (address.offset - out.offset) * coeff) := by
  intro memory
  have below : address.offset - out.offset < len := by
    obtain ⟨_, lower, upper⟩ := inside
    omega
  rw [perform_cons, perform_nil, muladd, store_within _ _ inside, gf64_region_muladd_arr_one,
    if_pos below, load, Address.plus_sub inside]

theorem muladd_outside {out : Address} (input : Words) (coeff : Gf64) {len : ℕ}
    (outside : ¬ address.within out len) : Acts [muladd out input coeff len] address id :=
  fun memory => store_outside memory _ outside

variable {outs : ℕ → Address} {len K : ℕ}

theorem fusedMuladd_within (input : Words) (coeffs : ℕ → Gf64) {own : ℕ} (below : own < K)
    (inside : address.within (outs own) len)
    (alone : ∀ k < K, address.within (outs k) len → k = own) :
    Acts [fusedMuladd outs input coeffs len K] address
      (· + input (address.offset - (outs own).offset) * coeffs own) := by
  intro memory
  have short : address.offset - (outs own).offset < len := by
    obtain ⟨_, lower, upper⟩ := inside
    omega
  rw [perform_cons, perform_nil, fusedMuladd, storeAll_within _ _ below inside alone,
    gf64_region_fused_output_muladd_arr, if_pos ⟨short, below⟩, load, Address.plus_sub inside]

theorem fusedMuladd_outside (input : Words) (coeffs : ℕ → Gf64)
    (outside : ∀ k < K, ¬ address.within (outs k) len) :
    Acts [fusedMuladd outs input coeffs len K] address id :=
  fun memory => storeAll_outside memory _ outside

theorem blockMuladd_within (in_blocks : ℕ → Words) (G : ℕ) (coeff : ℕ → Gf64) (K_stride : ℕ)
    {own : ℕ} (below : own < K) (inside : address.within (outs own) len)
    (alone : ∀ k < K, address.within (outs k) len → k = own) :
    Acts [blockMuladd outs K in_blocks G coeff K_stride len] address
      (· + ∑ g ∈ Finset.range G,
        in_blocks g (address.offset - (outs own).offset) * coeff (own * K_stride + g)) := by
  intro memory
  have short : address.offset - (outs own).offset < len := by
    obtain ⟨_, lower, upper⟩ := inside
    omega
  rw [perform_cons, perform_nil, blockMuladd, storeAll_within _ _ below inside alone,
    gf64_region_2d_muladd_arr_apply, if_pos ⟨short, below⟩, load, Address.plus_sub inside]

theorem blockMuladd_outside (in_blocks : ℕ → Words) (G : ℕ) (coeff : ℕ → Gf64) (K_stride : ℕ)
    (outside : ∀ k < K, ¬ address.within (outs k) len) :
    Acts [blockMuladd outs K in_blocks G coeff K_stride len] address id :=
  fun memory => storeAll_outside memory _ outside

end

end Par3
