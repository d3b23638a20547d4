/-
  Scytale.Node.Locator — the block locator (apps/scytale-node/src/node.rs).

  A node tells a peer where its chain is by hashes from the tip down to the first block: the
  last ones one by one, then at distances that double.
  - `offset`: how far below the tip the visited blocks stand, in closed form.
  - `locatorLoop_eq`: the loop visits just these, and its step does not overflow on a chain
    that fits in memory.
  - `queryCanonicalChain_eq`: the chain it goes over is the tip's path.
  - `block_locator`: so the locator goes down from the tip to the first block, has the last
    twelve blocks, and overshoots a fork by no more than the depth of the fork.
-/
import Scytale.Node.Recovery
import Scytale.Node.Index
import Scytale.Node.Queries

namespace Scytale

open Lib StorageEngine

/-! ## The loop of the locator -/

theorem double_pos {step : Nat} (h : 0 < step) : 0 < step * 2 := Nat.mul_pos h Nat.two_pos

/-- The loop of `get_block_locator`. There is no result where the index is out of range or the
    doubled step does not fit in 64 bits. -/
def locatorLoop (hashes : List Hash256) (cur step : Nat) (hstep : 0 < step) (locator : List Hash256) :
    Option (List Hash256) :=
  match hashes[cur]? with
  | none => none
  | some hash =>
    let locator := if locator.contains hash then locator else locator ++ [hash]
    if cur = 0 then some locator
    else
      let next := if cur ≥ step then cur - step else 0
      if locator.length > 10 then
        if step * 2 < 2 ^ 64 then locatorLoop hashes next (step * 2) (double_pos hstep) locator else none
      else locatorLoop hashes next step hstep locator
  termination_by cur
  decreasing_by all_goals (split <;> omega)

def getBlockLocator (H : Hasher) (chain : List (Block × Nat)) : Option (List Hash256) :=
  let hashes := chain.map fun p => p.1.header.hash H
  match hashes with
  | [] => some [Hash256.zero]
  | genesisHash :: _ =>
    match locatorLoop hashes (hashes.length - 1) 1 Nat.one_pos [] with
    | none => none
    | some locator => some (if locator.contains genesisHash then locator else locator ++ [genesisHash])

/-! ## Where the visited blocks stand -/

namespace Locator

/-- The distance of the `k`th visited block from the tip. -/
def offset (k : Nat) : Nat := if k ≤ 10 then k else 9 + 2 ^ (k - 10)

/-- The step from there. -/
def stride (k : Nat) : Nat := if k ≤ 10 then 1 else 2 ^ (k - 10)

theorem stride_pos (k : Nat) : 0 < stride k := by
  unfold stride
  split
  · exact Nat.one_pos
  · exact Nat.two_pow_pos _

theorem stride_doubles {k : Nat} (h : 10 ≤ k) : stride (k + 1) = stride k * 2 := by
  by_cases e : k = 10
  · subst e
    rfl
  · rw [stride, stride, if_neg (by omega), if_neg (by omega), ← Nat.pow_succ]
    congr 1
    omega

theorem offset_succ (k : Nat) : offset (k + 1) = offset k + stride k := by
  by_cases h : k ≤ 10
  · by_cases e : k = 10
    · subst e
      rfl
    · rw [offset, offset, stride, if_pos (by omega), if_pos h, if_pos h]
  · have hpow : 2 ^ (k + 1 - 10) = 2 * 2 ^ (k - 10) := by
      rw [← Nat.pow_succ']
      congr 1
      omega
    rw [offset, offset, stride, if_neg (by omega), if_neg h, if_neg h, hpow]
    omega

/-- A step goes no further than the distance already gone, and one. -/
theorem stride_le (k : Nat) : stride k ≤ offset k + 1 := by
  unfold stride offset
  split <;> omega

theorem offset_lt {j k : Nat} (h : j < k) : offset j < offset k := by
  induction k, h using Nat.le_induction with
  | base =>
    have := stride_pos j
    rw [offset_succ]
    omega
  | succ k _ ih =>
    have := stride_pos k
    rw [offset_succ]
    omega

theorem offset_le {j k : Nat} (h : j ≤ k) : offset j ≤ offset k := by
  rcases Nat.lt_or_eq_of_le h with h | rfl
  · exact Nat.le_of_lt (offset_lt h)
  · exact Nat.le_refl _

theorem le_offset (k : Nat) : k ≤ offset k := by
  induction k with
  | zero => exact Nat.zero_le _
  | succ k ih =>
    have := stride_pos k
    rw [offset_succ]
    omega

/-- The first visited block at least `d` below the tip stands at most twice as far. -/
theorem reach (d : Nat) : ∃ k, d ≤ offset k ∧ offset k ≤ 2 * d ∧ ∀ j < k, offset j < d := by
  have hex : ∃ k, d ≤ offset k := ⟨d, le_offset d⟩
  refine ⟨Nat.find hex, Nat.find_spec hex, ?_, fun j hj => Nat.not_le.mp (Nat.find_min hex hj)⟩
  cases hk : Nat.find hex with
  | zero => exact Nat.zero_le _
  | succ k =>
    have hbefore : offset k < d := Nat.not_le.mp (Nat.find_min hex (hk ▸ Nat.lt_succ_self k))
    have := stride_le k
    rw [offset_succ]
    omega

/-- The heights of the visited blocks of a chain with its tip at `n`: the first `m` and then the
    first block. -/
def heights (n m : Nat) : List Nat := (List.range (m + 1)).map fun k => n - offset k

/-- The visits end with the `m`th. -/
structure Ends (n m : Nat) : Prop where
  last : n ≤ offset m
  before : ∀ k < m, offset k < n

theorem ends (n : Nat) : ∃ m, Ends n m :=
  let ⟨m, hm, _, hbefore⟩ := reach n
  ⟨m, hm, hbefore⟩

section
variable {n m : Nat}

theorem heights_descend (h : Ends n m) : (heights n m).Pairwise (· > ·) := by
  rw [heights, List.pairwise_map]
  refine List.pairwise_lt_range.imp_of_mem fun {j k} _ hk hlt => ?_
  rw [List.mem_range] at hk
  have := h.before j (by omega)
  have := offset_lt hlt
  show n - offset k < n - offset j
  omega

theorem heights_head : (heights n m).head? = some n := by
  simp [heights, List.head?_map, List.head?_range, offset]

theorem heights_last (h : Ends n m) : (heights n m).getLast? = some 0 := by
  have := h.last
  rw [heights, List.range_succ, List.map_append, List.map_singleton, List.getLast?_concat]
  congr 1
  omega

theorem mem_heights {i : Nat} : i ∈ heights n m ↔ ∃ k ≤ m, n - offset k = i := by
  simp [heights]

/-- The last twelve blocks. -/
theorem recent_mem (h : Ends n m) {i : Nat} (hi : i ≤ n) (hd : n - i < 12) : i ∈ heights n m := by
  have hall : ∀ d < 12, offset d = d := by decide
  have hoffset : offset (n - i) = n - i := hall _ hd
  refine mem_heights.mpr ⟨n - i, ?_, by omega⟩
  -- a visit further than the first block would be the last but one
  by_contra hm
  have := offset_lt (Nat.not_le.mp hm)
  have := h.last
  omega

/-- The highest visited block that is not above `f`. -/
theorem overshoot (h : Ends n m) {f : Nat} (hf : f ≤ n) :
    ∃ i ∈ heights n m, i ≤ f ∧ (∀ i' ∈ heights n m, i' ≤ f → i' ≤ i) ∧ f ≤ i + (n - f) := by
  obtain ⟨k, hreach, htwice, hbefore⟩ := reach (n - f)
  have hkm : k ≤ m := by
    by_contra hm
    have := hbefore m (by omega)
    have := h.last
    omega
  refine ⟨n - offset k, mem_heights.mpr ⟨k, hkm, rfl⟩, by omega, ?_, by omega⟩
  intro i' hi' hle
  obtain ⟨j, -, rfl⟩ := mem_heights.mp hi'
  by_cases hjk : j < k
  · have := hbefore j hjk
    omega
  · have := offset_le (Nat.not_lt.mp hjk)
    omega

/-! ## The loop -/

/-- The loop from its `k`th visit on, over hashes that are all different. -/
theorem locatorLoop_eq {hashes : List Hash256} {hash : Nat → Hash256} (h : Ends n m) (hn : 2 * n ≤ 2 ^ 64)
    (hhash : ∀ i ≤ n, hashes[i]? = some (hash i)) (hinj : ∀ i ≤ n, ∀ j ≤ n, hash i = hash j → i = j) :
    ∀ (d k : Nat), k + d = m → locatorLoop hashes (n - offset k) (stride k) (stride_pos k)
      ((List.range k).map fun j => hash (n - offset j)) = some ((heights n m).map hash) := by
  -- a hash that was not pushed yet
  have hnew : ∀ k ≤ m, ((List.range k).map fun j => hash (n - offset j)).contains (hash (n - offset k)) = false := by
    intro k hk
    rw [Bool.eq_false_iff, ne_eq, List.contains_iff_mem, List.mem_map]
    rintro ⟨j, hj, he⟩
    rw [List.mem_range] at hj
    have := hinj _ (Nat.sub_le _ _) _ (Nat.sub_le _ _) he
    have := h.before j (by omega)
    have := offset_lt hj
    omega
  have hpush : ∀ k, ((List.range k).map fun j => hash (n - offset j)) ++ [hash (n - offset k)] =
      (List.range (k + 1)).map fun j => hash (n - offset j) := fun k => by
    rw [List.range_succ, List.map_append, List.map_singleton]
  intro d
  induction d with
  | zero =>
    intro k hk
    obtain rfl : k = m := hk
    have hlast : n - offset k = 0 := Nat.sub_eq_zero_of_le h.last
    rw [locatorLoop, hhash _ (Nat.sub_le _ _)]
    simp only [hnew k (Nat.le_refl _), Bool.false_eq_true, if_false, hpush]
    rw [if_pos hlast, heights, List.map_map]
    rfl
  | succ d ih =>
    intro k hk
    have hbefore := h.before k (by omega)
    have hnext : (if n - offset k ≥ stride k then n - offset k - stride k else 0) = n - offset (k + 1) := by
      rw [offset_succ]
      split <;> omega
    have hrest := ih (k + 1) (by omega)
    rw [locatorLoop, hhash _ (Nat.sub_le _ _)]
    simp only [hnew k (by omega), Bool.false_eq_true, if_false, hpush, hnext, List.length_map, List.length_range]
    rw [if_neg (by omega)]
    by_cases hk10 : 10 ≤ k
    · -- the step doubles, and stays below twice the tip's height
      have hdouble := stride_doubles hk10
      have hfits : stride k * 2 < 2 ^ 64 := by
        unfold offset at hbefore
        unfold stride
        split at hbefore
        · rw [if_pos (by omega)]
          omega
        · rw [if_neg (by omega)]
          omega
      rw [if_pos (by omega), if_pos hfits]
      simp only [hdouble] at hrest
      exact hrest
    · have hsame : stride (k + 1) = stride k := by
        rw [stride, stride, if_pos (by omega), if_pos (by omega)]
      rw [if_neg (by omega)]
      simp only [hsame] at hrest
      exact hrest

/-- The locator of a chain whose blocks have different hashes. -/
theorem getBlockLocator_eq {H : Hasher} {chain : List (Block × Nat)} {hash : Nat → Hash256} (h : Ends n m)
    (hn : 2 * n ≤ 2 ^ 64) (hlength : (chain.map fun p => p.1.header.hash H).length = n + 1)
    (hhash : ∀ i ≤ n, (chain.map fun p => p.1.header.hash H)[i]? = some (hash i))
    (hinj : ∀ i ≤ n, ∀ j ≤ n, hash i = hash j → i = j) :
    getBlockLocator H chain = some ((heights n m).map hash) := by
  have hloop : locatorLoop (chain.map fun p => p.1.header.hash H) n 1 Nat.one_pos [] = some ((heights n m).map hash) :=
    locatorLoop_eq h hn hhash hinj m 0 (Nat.zero_add m)
  rw [getBlockLocator]
  generalize (chain.map fun p => p.1.header.hash H) = hashes at *
  cases hashes with
  | nil => cases hlength
  | cons genesisHash hashes =>
    have hgenesis : genesisHash = hash 0 := Option.some.inj (hhash 0 (Nat.zero_le n))
    have hmem : (((heights n m).map hash).contains genesisHash) = true := by
      rw [List.contains_iff_mem, hgenesis]
      exact List.mem_map_of_mem (List.mem_of_getLast? (heights_last h))
    have hlast : (genesisHash :: hashes).length - 1 = n := by omega
    simp only [hlast, hloop, hmem, if_true]

end

end Locator

/-! ## The chain -/

variable {H : Hasher} {eng : Engines}

theorem NodeReach.mono {allowed allowed' : Node → NodeOp → Prop} (h : ∀ node op, allowed node op → allowed' node op)
    {init node : Node} (hr : NodeReach H eng allowed init node) : NodeReach H eng allowed' init node := by
  induction hr with
  | start => exact .start
  | step _ op hop ih => exact .step ih op (h _ _ hop)

theorem storedPath_ne_nil {db : StorageEngine} {f : Nat} {cur : Hash256} {bs : List Block}
    (h : storedPath db f cur = .ok bs) : bs ≠ [] := by
  cases f with
  | zero => cases h
  | succ f =>
    unfold storedPath at h
    split at h
    · cases h
    · cases h
    · split at h
      · cases h
        exact List.cons_ne_nil _ _
      · split at h
        · cases h
        · cases h
          exact List.cons_ne_nil _ _

/-- A walk that finds a chain as long as its tip is high numbers its blocks down to 0. -/
theorem canonicalWalk_of_storedPath {db : StorageEngine} {f : Nat} : ∀ {height : Nat} {cur : Hash256} {bs : List Block},
    storedPath db f cur = .ok bs → bs.length = height + 1 →
      canonicalWalk db height cur = .ok (bs.zip (List.range (height + 1)).reverse) := by
  induction f with
  | zero => intro height cur bs h; cases h
  | succ f ih =>
    intro height cur bs h hlen
    unfold storedPath at h
    split at h
    · cases h
    · cases h
    · rename_i block hblock
      split at h
      · cases h
        obtain rfl : height = 0 := by simpa using hlen.symm
        simp only [canonicalWalk, hblock]
        rfl
      · rename_i hlink
        split at h
        · cases h
        · rename_i path hpath
          cases h
          cases height with
          | zero =>
            have hnil : path = [] := List.eq_nil_of_length_eq_zero (by simpa using hlen)
            exact absurd hnil (storedPath_ne_nil hpath)
          | succ height =>
            have hrest := ih hpath (by simpa using hlen)
            simp only [canonicalWalk, hblock, hrest]
            rw [if_neg hlink, List.range_succ (n := height + 1), List.reverse_append, List.reverse_singleton,
              List.singleton_append, List.zip_cons_cons]

/-- An operation whose block the storage can give back: not a snapshot, with a block read off
    bytes and a hash that is not zero. -/
structure Legible (H : Hasher) (node : Node) (op : NodeOp) : Prop where
  plain : ¬op.isSnapshot
  height : op.AtNextHeight node
  decoded : ∀ b, op.block H = some b → b.decodable = true
  hashed : ∀ b, op.block H = some b → b.header.hash H ≠ Hash256.zero

/-- No clock is behind the last second there is. -/
theorem Legible.beforeRestart {node : Node} {op : NodeOp} (h : Legible H node op) :
    BeforeRestart H (some (UInt64.ofNat (2 ^ 64 - 1))) node op where
  plain := h.plain
  height := h.height
  clock := fun t _ => ⟨_, rfl, UInt64.le_iff_toNat_le.mpr (Nat.le_of_lt_succ t.toNat_lt)⟩
  decoded := h.decoded
  hashed := h.hashed

/-- The chain that is read from storage is the tip's path. -/
theorem queryCanonicalChain_eq {bits : UInt32} {depth : UInt64} {fault : Option StorageError} {init node : Node}
    (hinit : recoverFresh H bits depth fault = .ok init)
    (hgenesis : (buildGenesisBlock H bits).header.hash H ≠ Hash256.zero) (hr : NodeReach H eng (Legible H) init node) :
    queryCanonicalChain node.storage = .ok ((node.chain.tree.getPathFromGenesis node.chain.tree.canonicalTip).map
      fun n => (n.block, n.height.toNat)) := by
  have hr := NodeReach.mono (fun _ _ h => h.beforeRestart) hr
  obtain ⟨htip, hwalk⟩ := runs_storedPath hinit hgenesis hr
  have htree := (runs_stateInv (fun _ _ h => h.plain) hinit hr).tree
  obtain ⟨n, hn⟩ := htree.tip
  have hlength := htree.path_length hn
  have hheights := htree.path_heights hn
  have hheight : node.chain.tree.canonicalHeight = n.height := by
    rw [ChainTree.canonicalHeight, hn]
    rfl
  generalize node.chain.tree.getPathFromGenesis node.chain.tree.canonicalTip = path at hwalk hlength hheights
  have hfound := canonicalWalk_of_storedPath hwalk
    (show _ = n.height.toNat + 1 by simpa using hlength)
  rw [queryCanonicalChain, htip, hheight]
  simp only [hfound, Except.map]
  rw [← hheights, ← List.map_reverse, List.zip_map', ← List.map_reverse, List.reverse_reverse]

/-- A `Vec` takes at most `isize::MAX` bytes, and so has fewer than `2 ^ 63` elements that
    take any. -/
def FitsVec {α : Type} (l : List α) : Prop := l.length < 2 ^ 63

open Locator in
/-- The locator of the canonical chain with its tip at `n`: the hashes of its blocks at heights
    that go down from `n` to 0, with all of the last twelve; and the highest of them that is
    not above `f` is below it by at most the depth of `f`. -/
theorem block_locator {bits : UInt32} {depth : UInt64} {fault : Option StorageError} {init node : Node}
    (hinit : recoverFresh H bits depth fault = .ok init)
    (hgenesis : (buildGenesisBlock H bits).header.hash H ≠ Hash256.zero) (hr : NodeReach H eng (Legible H) init node)
    {chain : List (Block × Nat)} (hchain : queryCanonicalChain node.storage = .ok chain) (hfits : FitsVec chain) :
    let n := node.chain.tree.canonicalHeight.toNat
    ∃ (locator : List Hash256) (heights : List Nat), getBlockLocator H chain = some locator ∧
      (locator.map some = heights.map fun i => (chain[i]?).map fun p => p.1.header.hash H) ∧
      (∀ i ∈ heights, (chain[i]?).map (·.2) = some i) ∧
      heights.Pairwise (· > ·) ∧ heights.head? = some n ∧ heights.getLast? = some 0 ∧
      (∀ i ≤ n, n - i < 12 → i ∈ heights) ∧
      ∀ f ≤ n, ∃ i ∈ heights, i ≤ f ∧ (∀ i' ∈ heights, i' ≤ f → i' ≤ i) ∧ (i = 0 ∨ f - (n - f) ≤ i) := by
  intro n
  have hstate := runs_stateInv (fun _ _ h => h.plain) hinit hr
  have hreplays := hstate.replays
  obtain ⟨tip, htip⟩ := hstate.tree.tip
  have hn : n = tip.height.toNat := by
    show node.chain.tree.canonicalHeight.toNat = _
    rw [ChainTree.canonicalHeight, htip]
    rfl
  have hlength := hstate.tree.path_length htip
  have hheights := hstate.tree.path_heights htip
  rw [queryCanonicalChain_eq hinit hgenesis hr] at hchain
  generalize node.chain.tree.getPathFromGenesis node.chain.tree.canonicalTip = path at *
  rw [← hn] at hlength hheights
  obtain rfl := Except.ok.inj hchain
  have hfits : 2 * n ≤ 2 ^ 64 := by
    unfold FitsVec at hfits
    rw [List.length_map, hlength] at hfits
    omega
  have hhashes : ((path.map fun m => (m.block, m.height.toNat)).map fun p => p.1.header.hash H) = path.map (·.hash) := by
    rw [List.map_map]
    exact List.map_congr_left hreplays.hashed
  have hnumbers : ((path.map fun m => (m.block, m.height.toNat)).map (·.2)) = List.range (n + 1) := by
    rw [List.map_map]
    exact hheights
  obtain ⟨m, hends⟩ := ends n
  have hbelow : ∀ i ∈ heights n m, i ≤ n := fun i hi => by
    obtain ⟨k, -, rfl⟩ := mem_heights.mp hi
    exact Nat.sub_le _ _
  have hget : ∀ i ≤ n, (path.map (·.hash))[i]? = some (((path.map (·.hash))[i]?).getD Hash256.zero) := fun i hi => by
    rw [List.getElem?_eq_getElem (by simp [hlength]; omega), Option.getD_some]
  refine ⟨(heights n m).map fun i => ((path.map (·.hash))[i]?).getD Hash256.zero, heights n m, ?_, ?_, ?_,
    heights_descend hends, heights_head, heights_last hends, fun i hi hd => recent_mem hends hi hd, ?_⟩
  · refine getBlockLocator_eq hends hfits (hhashes ▸ by simp [hlength]) (hhashes ▸ hget) fun i hi j hj he => ?_
    have hsame : (path.map (·.hash))[i]? = (path.map (·.hash))[j]? := by rw [hget i hi, hget j hj, he]
    exact List.getElem?_inj (by simp [hlength]; omega) hreplays.distinct |>.mp hsame
  · rw [List.map_map]
    refine List.map_congr_left fun i hi => ?_
    rw [← List.getElem?_map, hhashes]
    exact (hget i (hbelow i hi)).symm
  · intro i hi
    rw [← List.getElem?_map, hnumbers, List.getElem?_range (Nat.lt_succ_of_le (hbelow i hi))]
  · intro f hf
    obtain ⟨i, hi, hle, hhighest, hfar⟩ := overshoot hends hf
    exact ⟨i, hi, hle, hhighest, .inr (by omega)⟩

set_option maxRecDepth 10000 in
/-- The locator of a node after its first block. -/
theorem block_locator_first : ∃ chain locator,
    queryCanonicalChain (firstNode Blake3.digest).storage = .ok chain ∧ chain.length = 2 ∧
      getBlockLocator Blake3.digest chain = some locator := by
  have hop : Legible Blake3.digest (freshNode Blake3.digest) (.submitBlock (some 1000) none (firstBlock Blake3.digest)) := by
    refine ⟨id, trivial, fun b hb => ?_, fun b hb => ?_⟩
    · cases hb
      decide +kernel
    · cases hb
      decide +kernel
  have hreach : NodeReach Blake3.digest acceptAll (Legible Blake3.digest) (freshNode Blake3.digest)
      (firstNode Blake3.digest) := .step .start _ hop
  have hgenesis : (buildGenesisBlock Blake3.digest easyBits).header.hash Blake3.digest ≠ Hash256.zero := by decide +kernel
  have hchain := queryCanonicalChain_eq freshNode_recovered hgenesis hreach
  have hlength : ((firstNode Blake3.digest).chain.tree.getPathFromGenesis
      (firstNode Blake3.digest).chain.tree.canonicalTip).length = 2 := by decide +kernel
  obtain ⟨locator, -, hlocator, -⟩ := block_locator freshNode_recovered hgenesis hreach hchain
    (by rw [FitsVec, List.length_map, hlength]; decide)
  exact ⟨_, locator, hchain, by rw [List.length_map, hlength], hlocator⟩

end Scytale
