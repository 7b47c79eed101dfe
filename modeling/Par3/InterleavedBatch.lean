import Par3.Foundations.Lanes
import Par3.Gf64MulContract
import Par3.SharedProducts

/-!
# The transform on groups of words

Up to eight polynomials go through the transform together. The words of a coefficient stand side by side, so that
one register holds a coefficient of all of them, and every loop of the transform is a loop over such groups with a
loop over the lanes inside. Each lane is transformed as if it were alone.
-/

namespace Par3

namespace Interleaved

open Lanes NovelBasis

/-! ## Conversion of the basis -/

/-- `dst[k] ^= src[k]` in every lane -/
def xorGroup (data : ℕ → Gf64) (dst src : ℕ) : ℕ → Gf64 :=
  (List.range GF64_HQC_BATCH_LANES).foldl (fun data k => xorInto data (dst + k) (src + k)) data

def hqc_cvt_div_blk_batch (data : ℕ → Gf64) (poly si_h si_l polylen : ℕ) : ℕ → Gf64 :=
  let deg_diff := si_h - si_l
  (List.range' si_h (polylen - si_h)).reverse.foldl (fun data i =>
    xorGroup data (poly + (i - deg_diff) * GF64_HQC_BATCH_LANES) (poly + i * GF64_HQC_BATCH_LANES)) data

def hqc_cvt_idiv_blk_batch (data : ℕ → Gf64) (poly si_h si_l polylen : ℕ) : ℕ → Gf64 :=
  let deg_diff := si_h - si_l
  (List.range' si_h (polylen - si_h)).foldl (fun data i =>
    xorGroup data (poly + (i - deg_diff) * GF64_HQC_BATCH_LANES) (poly + i * GF64_HQC_BATCH_LANES)) data

def hqc_cvt_rep_in_si_batch (data : ℕ → Gf64) (datalen logsize_blk polyloglen_blk si : ℕ) : ℕ → Gf64 :=
  (List.range' si (polyloglen_blk - si)).reverse.foldl (fun data i =>
    let polylen := 2 ^ (i + logsize_blk + 1)
    let si_h := 2 ^ (i + logsize_blk)
    let si_l := 2 ^ (i + logsize_blk - si)
    (blockStarts datalen polylen).foldl
      (fun data j => hqc_cvt_div_blk_batch data (j * GF64_HQC_BATCH_LANES) si_h si_l polylen) data) data

def hqc_cvt_irep_in_si_batch (data : ℕ → Gf64) (datalen logsize_blk polyloglen_blk si : ℕ) : ℕ → Gf64 :=
  (List.range' si (polyloglen_blk - si)).foldl (fun data i =>
    let polylen := 2 ^ (i + logsize_blk + 1)
    let si_h := 2 ^ (i + logsize_blk)
    let si_l := 2 ^ (i + logsize_blk - si)
    (blockStarts datalen polylen).foldl
      (fun data j => hqc_cvt_idiv_blk_batch data (j * GF64_HQC_BATCH_LANES) si_h si_l polylen) data) data

def hqc_cvt_batch (data : ℕ → Gf64) (datalen logsize_blk polyloglen_blk : ℕ) : ℕ → Gf64 :=
  if small : polyloglen_blk ≤ 1 then data else
    let si := hqc_cvt_choose_si polyloglen_blk
    have := choose_si_pos small
    have := choose_si_lt small
    let data := hqc_cvt_rep_in_si_batch data datalen logsize_blk polyloglen_blk si
    let data := hqc_cvt_batch data datalen logsize_blk si
    hqc_cvt_batch data datalen (logsize_blk + si) (polyloglen_blk - si)
termination_by polyloglen_blk

def hqc_icvt_batch (data : ℕ → Gf64) (datalen logsize_blk polyloglen_blk : ℕ) : ℕ → Gf64 :=
  if small : polyloglen_blk ≤ 1 then data else
    let si := hqc_cvt_choose_si polyloglen_blk
    have := choose_si_pos small
    have := choose_si_lt small
    let data := hqc_icvt_batch data datalen logsize_blk si
    let data := hqc_icvt_batch data datalen (logsize_blk + si) (polyloglen_blk - si)
    hqc_cvt_irep_in_si_batch data datalen logsize_blk polyloglen_blk si
termination_by polyloglen_blk

def basisCvt_batch_avx512 (f : ℕ → Gf64) (n : ℕ) : ℕ → Gf64 :=
  if n ≤ 1 then f else hqc_cvt_batch f n 0 (Nat.clog 2 n)

def ibasisCvt_batch_avx512 (g : ℕ → Gf64) (n : ℕ) : ℕ → Gf64 :=
  if n ≤ 1 then g else hqc_icvt_batch g n 0 (Nat.clog 2 n)

/-! ## Butterflies -/

/-- The products of two groups -/
def mulGroup (a b : ℕ → Gf64) : ℕ → Gf64 := fun k =>
  ⟨gf64_mul_avx512 (fun _ => 0) (fun k => (a k).bits) (fun k => (b k).bits) GF64_HQC_BATCH_LANES k⟩

/-- A round of the forward loop, on the groups at `flp` and `fhp` -/
def forwardGroup (f : ℕ → Gf64) (flp fhp : ℕ) (s_a : Gf64) : ℕ → Gf64 :=
  let fl := view f flp
  let fh := view f fhp
  let prod := mulGroup fh fun _ => s_a
  (List.range GF64_HQC_BATCH_LANES).foldl (fun f k =>
    Function.update (Function.update f (flp + k) (fl k + prod k)) (fhp + k) (fl k + prod k + fh k)) f

/-- A round of the inverse loop -/
def inverseGroup (f : ℕ → Gf64) (flp fhp : ℕ) (s_a : Gf64) : ℕ → Gf64 :=
  let fl := view f flp
  let fh := fun k => view f flp k + view f fhp k
  let prod := mulGroup fh fun _ => s_a
  (List.range GF64_HQC_BATCH_LANES).foldl (fun f k =>
    Function.update (Function.update f (flp + k) (fl k + prod k)) (fhp + k) (fh k)) f

def butterfly_fwd_batch_avx512 : ℕ → (ℕ → Gf64) → ℕ → ℕ → ℕ → Gf64 → VTable → ℕ → Gf64
  | 0, f, _, _, _, _, _ => f
  | logn + 1, f, base, n, n_table, a, v_table =>
    if n = 2 then forwardGroup f base (base + GF64_HQC_BATCH_LANES) a
    else
      let half := n / 2
      let s_a := si_eval logn a v_table n_table
      let f := (List.range half).foldl (fun f j =>
        forwardGroup f (base + j * GF64_HQC_BATCH_LANES) (base + (j + half) * GF64_HQC_BATCH_LANES) s_a) f
      let f := butterfly_fwd_batch_avx512 logn f base half n_table a v_table
      butterfly_fwd_batch_avx512 logn f (base + half * GF64_HQC_BATCH_LANES) half n_table
        (a + v_table.values (2 ^ logn)) v_table

def butterfly_inv_batch_avx512 : ℕ → (ℕ → Gf64) → ℕ → ℕ → ℕ → Gf64 → VTable → ℕ → Gf64
  | 0, f, _, _, _, _, _ => f
  | logn + 1, f, base, n, n_table, a, v_table =>
    if n = 2 then inverseGroup f base (base + GF64_HQC_BATCH_LANES) a
    else
      let half := n / 2
      let f := butterfly_inv_batch_avx512 logn f base half n_table a v_table
      let f := butterfly_inv_batch_avx512 logn f (base + half * GF64_HQC_BATCH_LANES) half n_table
        (a + v_table.values (2 ^ logn)) v_table
      let s_a := si_eval logn a v_table n_table
      (List.range half).foldl (fun f j =>
        inverseGroup f (base + j * GF64_HQC_BATCH_LANES) (base + (j + half) * GF64_HQC_BATCH_LANES) s_a) f

/-! ## The transform -/

def gf64_addfft64_fwd_batch_avx512 (arr : ℕ → Gf64) (n : ℕ) (registered : Bool) : ℕ → Gf64 :=
  if n ≤ 1 then arr
  else
    let logn := Nat.clog 2 n
    let a := cantor (logn - 1)
    butterfly_fwd_batch_avx512 logn (basisCvt_batch_avx512 arr n) 0 n n a (get_or_build_v_table n registered)

def gf64_addfft64_inv_batch_avx512 (arr : ℕ → Gf64) (n : ℕ) (registered : Bool) : ℕ → Gf64 :=
  if n ≤ 1 then arr
  else
    let logn := Nat.clog 2 n
    let a := cantor (logn - 1)
    ibasisCvt_batch_avx512
      (butterfly_inv_batch_avx512 logn arr 0 n n a (get_or_build_v_table n registered)) n

/-- The words of a buffer are put into all lanes. -/
def replicated (unset pt0 : ℕ → Gf64) (n : ℕ) : ℕ → Gf64 :=
  (List.range n).foldl (fun pt i =>
    (List.range GF64_HQC_BATCH_LANES).foldl
      (fun pt k => Function.update pt (i * GF64_HQC_BATCH_LANES + k) (pt0 i)) pt) unset

/-- The polynomials are put into a lane each. -/
def transposed (words pf : ℕ → Gf64) (K f len_f copy_n : ℕ) : ℕ → Gf64 :=
  (List.range K).foldl (fun pf k =>
    (List.range copy_n).foldl
      (fun pf i => Function.update pf (i * GF64_HQC_BATCH_LANES + k) (view words (f + k * len_f) i)) pf) pf

/-- Group by group -/
def multiplied (pf pt : ℕ → Gf64) (n : ℕ) : ℕ → Gf64 :=
  (List.range n).foldl (fun pf i =>
    let prod := mulGroup (view pf (i * GF64_HQC_BATCH_LANES)) (view pt (i * GF64_HQC_BATCH_LANES))
    (List.range GF64_HQC_BATCH_LANES).foldl
      (fun pf k => Function.update pf (i * GF64_HQC_BATCH_LANES + k) (prod k)) pf) pf

/-- The buffers for the transforms are in the scratch, which can hold anything. -/
def gf64_addfft64_poly_mul_batch_shared_interleaved_avx512 (registered : Bool) (unset : ℕ → Gf64)
    (size room : ℕ) (words : ℕ → Gf64) (outs : ℕ → ℕ) (K : ℕ) (shared : ℕ → Gf64)
    (len_shared f len_f out_len : ℕ) : Option (ℕ → Gf64) :=
  if K = 0 ∨ out_len = 0 then some words
  else if len_shared = 0 ∨ len_f = 0 then
    (List.range K).foldlM (fun words k => putWords size words (outs k) out_len fun _ => 0) words
  else
    let full_len := max (len_shared + len_f - 1) out_len
    let n := productLength len_shared len_f out_len
    let W := GF64_HQC_BATCH_LANES
    if n > GF64_HQC_MAX_LM_N ∨ 4 * W * n > room then none
    else
      let pt0 := gf64_addfft64_fwd_recursive_scratch (zeroPadded shared len_shared) n true registered
      let pt := replicated unset pt0 n
      let pf := fun p => if p < W * n then 0 else unset (W * n + p)
      let pf := transposed words pf K f len_f (min len_f n)
      let pf := gf64_addfft64_fwd_batch_avx512 pf n registered
      let pf := multiplied pf pt n
      let pf := gf64_addfft64_inv_batch_avx512 pf n registered
      let copy_n := min full_len out_len
      (List.range K).foldlM (fun words k => putWords size words (outs k) out_len fun i =>
        if i < copy_n then pf (i * W + k) else 0) words

/-! ## Lane by lane -/

theorem xorGroup_lanewise (d s : ℕ) :
    Lanewise GF64_HQC_BATCH_LANES
      (fun data => xorGroup data (d * GF64_HQC_BATCH_LANES) (s * GF64_HQC_BATCH_LANES))
      fun data => xorInto data d s := by
  intro data k inside
  refine lane_foldl (fun g => xorInto g d s) inside (fun memory j own => ?_) data
  rw [xorInto, lane_update _ _ own inside]
  by_cases same : j = k
  · rw [if_pos same, if_pos same, xorInto, same]
    rfl
  · rw [if_neg same, if_neg same]

theorem div_blk_lanewise (base si_h si_l polylen : ℕ) :
    Lanewise GF64_HQC_BATCH_LANES
      (fun data => hqc_cvt_div_blk_batch data (base * GF64_HQC_BATCH_LANES) si_h si_l polylen)
      fun data => hqc_cvt_div_blk data base si_h si_l polylen := by
  refine lanewise_foldl _ fun i _ => ?_
  rw [← Nat.add_mul, ← Nat.add_mul]
  exact xorGroup_lanewise _ _

theorem idiv_blk_lanewise (base si_h si_l polylen : ℕ) :
    Lanewise GF64_HQC_BATCH_LANES
      (fun data => hqc_cvt_idiv_blk_batch data (base * GF64_HQC_BATCH_LANES) si_h si_l polylen)
      fun data => hqc_cvt_idiv_blk data base si_h si_l polylen := by
  refine lanewise_foldl _ fun i _ => ?_
  rw [← Nat.add_mul, ← Nat.add_mul]
  exact xorGroup_lanewise _ _

theorem rep_in_si_lanewise (datalen logsize_blk polyloglen_blk si : ℕ) :
    Lanewise GF64_HQC_BATCH_LANES (fun data => hqc_cvt_rep_in_si_batch data datalen logsize_blk polyloglen_blk si)
      fun data => hqc_cvt_rep_in_si data datalen logsize_blk polyloglen_blk si :=
  lanewise_foldl _ fun _ _ => lanewise_foldl _ fun j _ => div_blk_lanewise j _ _ _

theorem irep_in_si_lanewise (datalen logsize_blk polyloglen_blk si : ℕ) :
    Lanewise GF64_HQC_BATCH_LANES (fun data => hqc_cvt_irep_in_si_batch data datalen logsize_blk polyloglen_blk si)
      fun data => hqc_cvt_irep_in_si data datalen logsize_blk polyloglen_blk si :=
  lanewise_foldl _ fun _ _ => lanewise_foldl _ fun j _ => idiv_blk_lanewise j _ _ _

theorem hqc_cvt_lanewise (datalen logsize_blk polyloglen_blk : ℕ) :
    Lanewise GF64_HQC_BATCH_LANES (fun data => hqc_cvt_batch data datalen logsize_blk polyloglen_blk)
      fun data => hqc_cvt data datalen logsize_blk polyloglen_blk := by
  induction polyloglen_blk using Nat.strong_induction_on generalizing logsize_blk with
  | _ polyloglen_blk ih =>
    intro data k inside
    dsimp only
    rw [hqc_cvt_batch, hqc_cvt]
    split
    case isTrue => rfl
    case isFalse more =>
      have pos := choose_si_pos more
      have less := choose_si_lt more
      have divided := rep_in_si_lanewise datalen logsize_blk polyloglen_blk (hqc_cvt_choose_si polyloglen_blk)
      have low := ih _ less logsize_blk
      have high := ih (polyloglen_blk - hqc_cvt_choose_si polyloglen_blk) (by omega)
        (logsize_blk + hqc_cvt_choose_si polyloglen_blk)
      exact (high.comp (low.comp divided)) data k inside

theorem hqc_icvt_lanewise (datalen logsize_blk polyloglen_blk : ℕ) :
    Lanewise GF64_HQC_BATCH_LANES (fun data => hqc_icvt_batch data datalen logsize_blk polyloglen_blk)
      fun data => hqc_icvt data datalen logsize_blk polyloglen_blk := by
  induction polyloglen_blk using Nat.strong_induction_on generalizing logsize_blk with
  | _ polyloglen_blk ih =>
    intro data k inside
    dsimp only
    rw [hqc_icvt_batch, hqc_icvt]
    split
    case isTrue => rfl
    case isFalse more =>
      have pos := choose_si_pos more
      have less := choose_si_lt more
      have low := ih _ less logsize_blk
      have high := ih (polyloglen_blk - hqc_cvt_choose_si polyloglen_blk) (by omega)
        (logsize_blk + hqc_cvt_choose_si polyloglen_blk)
      have multiplied := irep_in_si_lanewise datalen logsize_blk polyloglen_blk (hqc_cvt_choose_si polyloglen_blk)
      exact (multiplied.comp (high.comp low)) data k inside

theorem basisCvt_lanewise (n : ℕ) :
    Lanewise GF64_HQC_BATCH_LANES (fun f => basisCvt_batch_avx512 f n) fun f => basisCvt_recursive_v2 f n := by
  intro f k inside
  dsimp only
  rw [basisCvt_batch_avx512, basisCvt_recursive_v2]
  split
  · rfl
  · exact hqc_cvt_lanewise _ _ _ f k inside

theorem ibasisCvt_lanewise (n : ℕ) :
    Lanewise GF64_HQC_BATCH_LANES (fun g => ibasisCvt_batch_avx512 g n) fun g => ibasisCvt_recursive_v2 g n := by
  intro g k inside
  dsimp only
  rw [ibasisCvt_batch_avx512, ibasisCvt_recursive_v2]
  split
  · rfl
  · exact hqc_icvt_lanewise _ _ _ g k inside

theorem mulGroup_eq (a b : ℕ → Gf64) {k : ℕ} (inside : k < GF64_HQC_BATCH_LANES) :
    mulGroup a b k = a k * b k := by
  rw [mulGroup, gf64_mul_avx512_eq _ _ _ inside]

/-- Two words of a lane are replaced. -/
theorem pair_lane (f : ℕ → Gf64) (l h : ℕ) (low high : ℕ → Gf64) {k : ℕ}
    (inside : k < GF64_HQC_BATCH_LANES) :
    Lanes.lane GF64_HQC_BATCH_LANES ((List.range GF64_HQC_BATCH_LANES).foldl (fun f k =>
        Function.update (Function.update f (l * GF64_HQC_BATCH_LANES + k) (low k))
          (h * GF64_HQC_BATCH_LANES + k) (high k)) f) k =
      Function.update (Function.update (Lanes.lane GF64_HQC_BATCH_LANES f k) l (low k)) h (high k) := by
  refine lane_foldl (fun g => Function.update (Function.update g l (low k)) h (high k)) inside
    (fun memory j own => ?_) f
  rw [lane_update _ _ own inside, lane_update _ _ own inside]
  by_cases same : j = k
  · rw [if_pos same, if_pos same, if_pos same, same]
  · rw [if_neg same, if_neg same, if_neg same]

theorem forwardGroup_lanewise (half l h : ℕ) (s_a : Gf64) :
    Lanewise GF64_HQC_BATCH_LANES
      (fun f => forwardGroup f (l * GF64_HQC_BATCH_LANES) (h * GF64_HQC_BATCH_LANES) s_a)
      fun f =>
        let pair := forwardPair true half s_a (f l) (f h)
        Function.update (Function.update f l pair.1) h pair.2 := by
  intro f k inside
  dsimp only
  rw [forwardGroup, pair_lane f l h _ _ inside, mulGroup_eq _ _ inside, forwardPair_eq, mul_comm s_a,
    add_comm s_a, one_add_mul, mul_comm s_a, add_comm (Lanes.lane GF64_HQC_BATCH_LANES f k h), ← add_assoc]
  rfl

theorem inverseGroup_lanewise (half l h : ℕ) (s_a : Gf64) :
    Lanewise GF64_HQC_BATCH_LANES
      (fun f => inverseGroup f (l * GF64_HQC_BATCH_LANES) (h * GF64_HQC_BATCH_LANES) s_a)
      fun f =>
        let pair := inversePair true half s_a (f l) (f h)
        Function.update (Function.update f l pair.1) h pair.2 := by
  intro f k inside
  dsimp only
  rw [inverseGroup, pair_lane f l h _ _ inside, mulGroup_eq _ _ inside, inversePair_eq, mul_comm s_a]
  rfl

theorem butterfly_fwd_lanewise (logn base n n_table : ℕ) (a : Gf64) (v_table : VTable) :
    Lanewise GF64_HQC_BATCH_LANES
      (fun f => butterfly_fwd_batch_avx512 logn f (base * GF64_HQC_BATCH_LANES) n n_table a v_table)
      fun f => butterfly_fwd true logn f base n n_table a v_table := by
  induction logn generalizing base n a with
  | zero => exact fun _ _ _ => rfl
  | succ logn ih =>
    intro f k inside
    dsimp only
    rw [butterfly_fwd_batch_avx512, butterfly_fwd]
    split
    case isTrue =>
      have pair := forwardGroup_lanewise 1 base (base + 1) a f k inside
      dsimp only at pair
      rwa [Nat.succ_mul, forwardPair_eq] at pair
    case isFalse =>
      dsimp only
      have rounds : Lanewise GF64_HQC_BATCH_LANES
          (fun f => (List.range (n / 2)).foldl (fun f j => forwardGroup f
            (base * GF64_HQC_BATCH_LANES + j * GF64_HQC_BATCH_LANES)
            (base * GF64_HQC_BATCH_LANES + (j + n / 2) * GF64_HQC_BATCH_LANES)
            (si_eval logn a v_table n_table)) f)
          (combineHalves (forwardPair true (n / 2) (si_eval logn a v_table n_table)) base (n / 2)) := by
        refine lanewise_foldl _ fun j _ => ?_
        rw [← Nat.add_mul, ← Nat.add_mul, ← Nat.add_assoc]
        exact forwardGroup_lanewise _ _ _ _
      have low := ih base (n / 2) a
      have high := ih (base + n / 2) (n / 2) (a + v_table.values (2 ^ logn))
      rw [Nat.add_mul] at high
      exact (high.comp (low.comp rounds)) f k inside

theorem butterfly_inv_lanewise (logn base n n_table : ℕ) (a : Gf64) (v_table : VTable) :
    Lanewise GF64_HQC_BATCH_LANES
      (fun f => butterfly_inv_batch_avx512 logn f (base * GF64_HQC_BATCH_LANES) n n_table a v_table)
      fun f => butterfly_inv true logn f base n n_table a v_table := by
  induction logn generalizing base n a with
  | zero => exact fun _ _ _ => rfl
  | succ logn ih =>
    intro f k inside
    dsimp only
    rw [butterfly_inv_batch_avx512, butterfly_inv]
    split
    case isTrue =>
      have pair := inverseGroup_lanewise 1 base (base + 1) a f k inside
      dsimp only at pair
      rwa [Nat.succ_mul, inversePair_eq] at pair
    case isFalse =>
      dsimp only
      have rounds : Lanewise GF64_HQC_BATCH_LANES
          (fun f => (List.range (n / 2)).foldl (fun f j => inverseGroup f
            (base * GF64_HQC_BATCH_LANES + j * GF64_HQC_BATCH_LANES)
            (base * GF64_HQC_BATCH_LANES + (j + n / 2) * GF64_HQC_BATCH_LANES)
            (si_eval logn a v_table n_table)) f)
          (combineHalves (inversePair true (n / 2) (si_eval logn a v_table n_table)) base (n / 2)) := by
        refine lanewise_foldl _ fun j _ => ?_
        rw [← Nat.add_mul, ← Nat.add_mul, ← Nat.add_assoc]
        exact inverseGroup_lanewise _ _ _ _
      have low := ih base (n / 2) a
      have high := ih (base + n / 2) (n / 2) (a + v_table.values (2 ^ logn))
      rw [Nat.add_mul] at high
      exact (rounds.comp (high.comp low)) f k inside

theorem fwd_lanewise (n : ℕ) (registered : Bool) :
    Lanewise GF64_HQC_BATCH_LANES (fun arr => gf64_addfft64_fwd_batch_avx512 arr n registered)
      fun arr => gf64_addfft64_fwd_recursive_scratch arr n true registered := by
  intro arr k inside
  dsimp only
  rw [gf64_addfft64_fwd_batch_avx512, gf64_addfft64_fwd_recursive_scratch]
  split
  · rfl
  · have butterflies := butterfly_fwd_lanewise (Nat.clog 2 n) 0 n n (cantor (Nat.clog 2 n - 1))
      (get_or_build_v_table n registered)
    rw [Nat.zero_mul] at butterflies
    exact (butterflies.comp (basisCvt_lanewise n)) arr k inside

theorem inv_lanewise (n : ℕ) (registered : Bool) :
    Lanewise GF64_HQC_BATCH_LANES (fun arr => gf64_addfft64_inv_batch_avx512 arr n registered)
      fun arr => gf64_addfft64_inv_recursive_scratch arr n true registered := by
  intro arr k inside
  dsimp only
  rw [gf64_addfft64_inv_batch_avx512, gf64_addfft64_inv_recursive_scratch]
  split
  · rfl
  · have butterflies := butterfly_inv_lanewise (Nat.clog 2 n) 0 n n (cantor (Nat.clog 2 n - 1))
      (get_or_build_v_table n registered)
    rw [Nat.zero_mul] at butterflies
    exact ((ibasisCvt_lanewise n).comp butterflies) arr k inside

end Interleaved

end Par3
