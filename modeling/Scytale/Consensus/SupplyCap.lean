/-
  Scytale.Consensus.SupplyCap — no run creates more than the maximum supply.

  Every stored block passed the authoritative checks on its parent's replay, so along any
  path the set's value grows by at most the subsidy of each height (`step_total`). From the
  genesis allocation on, the halving series keeps the sum within the cap.
-/
import Scytale.Consensus.Replay
import Scytale.Core.Genesis

namespace Scytale

open Lib

variable {H : Hasher} {genesis : Block}

/-- A block that passes the authoritative checks adds at most its height's subsidy. -/
theorem step_total {b : Block} {height : UInt64} {pu u : UtxoSet} {hs : List BlockHeader} {fees fees' : UInt64}
    (hval : validateBlockAuthoritativeWithHeaders H b height pu hs = .ok fees)
    (hap : UtxoSet.applyBlock H pu b.transactions height = .ok (u, fees')) :
    u.total ≤ pu.total + (getBlockSubsidy height).toNat := by
  obtain ⟨u', hap', cb, txs, htx, hreward⟩ := authoritative_applies hval
  rw [hap] at hap'
  cases hap'
  rw [htx] at hap
  have := UtxoSet.applyBlock_total hap
  omega

/-- Along the path to any stored block. -/
theorem StateInv.path_total {st : ChainState} (h : StateInv H genesis st) {utxo : UtxoSet} {fees : UInt64}
    (hg : UtxoSet.applyBlock H UtxoSet.new genesis.transactions 0 = .ok (utxo, fees)) {k : Hash256} {n : BlockNode}
    (hk : st.tree.getNode k = some n) {u : UtxoSet}
    (hu : replay H UtxoSet.new (st.tree.getPathFromGenesis k) = .ok u) :
    u.total ≤ utxo.total + emission n.height.toNat := by
  -- induction along the parent links
  suffices hs : ∀ n, st.tree.getNode k = some n → ∀ u, replay H UtxoSet.new (st.tree.getPathFromGenesis k) = .ok u →
      u.total ≤ utxo.total + emission n.height.toNat from hs n hk u hu
  refine h.tree.rooted.induction (P := fun k => ∀ n, st.tree.getNode k = some n → ∀ u,
    replay H UtxoSet.new (st.tree.getPathFromGenesis k) = .ok u → u.total ≤ utxo.total + emission n.height.toNat) ?_ ?_ hk
  · intro n hn u hu
    rw [ChainTree.path_root h.tree.rooted h.tree.root] at hu
    obtain ⟨fees', hap⟩ := replay_one.mp hu
    change UtxoSet.applyBlock H UtxoSet.new genesis.transactions 0 = _ at hap
    rw [hg] at hap
    cases hap
    exact Nat.le_add_right _ _
  · intro k n hk hr ih m hm u hu
    rw [hk] at hm
    cases hm
    obtain ⟨-, p, hc⟩ := h.tree.child hk hr
    obtain ⟨pu, fees', hrep, hval⟩ := h.validated hk hr
    rw [ChainTree.path_child h.tree.rooted hk hr, replay_append, hrep] at hu
    obtain ⟨fees'', hap⟩ := replay_one.mp hu
    have h1 := step_total hval hap
    have h2 := ih p hc.parent_stored pu hrep
    have hsucc := height_succ (h.tree.low hc.parent_stored) hc.later
    have hofNat : UInt64.ofNat (p.height.toNat + 1) = n.height := by
      rw [hc.height, ← hsucc, UInt64.ofNat_toNat]
    have h3 := emission_succ p.height.toNat
    rw [hofNat] at h3
    rw [hc.height, hsucc]
    rw [hc.height] at h1 h3
    omega

/-- The unspent value is within the genesis allocation and the subsidies up to the tip, so
    within the maximum supply. -/
theorem StateInv.within_cap {bits : UInt32} {st : ChainState} (h : StateInv H (buildGenesisBlock H bits) st) :
    st.utxo.total ≤ totalGenesisQuanta.toNat + emission st.tree.canonicalHeight.toNat ∧
      totalGenesisQuanta.toNat + emission st.tree.canonicalHeight.toNat ≤ maxSupply.toNat := by
  obtain ⟨n, htip⟩ := h.tree.tip
  have hheight : st.tree.canonicalHeight = n.height := by simp [ChainTree.canonicalHeight, htip]
  obtain ⟨s, hs, htotal⟩ := genesis_applies H bits
  have h1 := h.path_total hs htip h.replayed
  have h2 := emission_le n.height.toNat_lt
  have hgen : totalGenesisQuanta.toNat = 3300000000000000 := rfl
  have hmax : maxSupply.toNat = 6600000000000000 := rfl
  rw [htotal] at h1
  rw [hheight]
  exact ⟨h1, by omega⟩

/-- In every state reachable from the genesis block the unspent value is within the
    genesis allocation and the subsidies up to the tip, so within the maximum supply, and
    the 64-bit total is computed without overflow. -/
theorem supply_cap {bits : UInt32} {utxo : UtxoSet} {fees : UInt64} {st : ChainState}
    (hg : UtxoSet.applyBlock H UtxoSet.new (buildGenesisBlock H bits).transactions 0 = .ok (utxo, fees))
    (hr : Reach H anyResult ⟨ChainTree.new H (buildGenesisBlock H bits), utxo⟩ st) :
    st.utxo.total ≤ totalGenesisQuanta.toNat + emission st.tree.canonicalHeight.toNat ∧
      totalGenesisQuanta.toNat + emission st.tree.canonicalHeight.toNat ≤ maxSupply.toNat ∧
      ∃ r, st.utxo.totalQuanta = .ok r ∧ r.toNat = st.utxo.total := by
  obtain ⟨htotal, hcap⟩ := (reach_stateInv hg hr).within_cap
  have hmax : maxSupply.toNat = 6600000000000000 := rfl
  exact ⟨htotal, hcap, UtxoSet.totalQuanta_eq (by omega)⟩

/-- The set the genesis block leaves. -/
def genesisUtxo (H : Hasher) (bits : UInt32) : UtxoSet :=
  match UtxoSet.applyBlock H UtxoSet.new (buildGenesisBlock H bits).transactions 0 with
  | .ok (u, _) => u
  | .error _ => UtxoSet.new

theorem genesisUtxo_applies (H : Hasher) (bits : UInt32) :
    UtxoSet.applyBlock H UtxoSet.new (buildGenesisBlock H bits).transactions 0 = .ok (genesisUtxo H bits, 0) := by
  obtain ⟨s, hs, -⟩ := genesis_applies H bits
  rw [genesisUtxo, hs]

set_option maxRecDepth 10000 in
theorem supply_cap_first_block :
    let H := Blake3.digest
    let genesis := buildGenesisBlock H easyBits
    let block := mined H (genesis.header.hash H) (genesisUtxo H easyBits) 1 60 [sampleCoinbase]
    let st := (processBlock H (some 1000) ⟨ChainTree.new H genesis, genesisUtxo H easyBits⟩ block).1
    st.tree.canonicalHeight = 1 ∧
      st.utxo.total ≤ totalGenesisQuanta.toNat + emission st.tree.canonicalHeight.toNat :=
  ⟨by decide +kernel, (supply_cap (genesisUtxo_applies _ _) (.process .start _ _ _ trivial)).1⟩

end Scytale
