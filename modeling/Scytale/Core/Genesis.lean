/-
  Scytale.Core.Genesis — the genesis block (crates/scytale-core/src/genesis.rs).

  - `genesis_applies`: on the empty set the genesis block applies, and leaves exactly the
    two allocations.
-/
import Scytale.Core.Supply
import Scytale.Blake3

namespace Scytale

open Lib

def genesisFounderQuanta : UInt64 := 1980000000000000

def genesisDeveloperQuanta : UInt64 := 1320000000000000

def totalGenesisQuanta : UInt64 := 3300000000000000

/-- `GENESIS_FOUNDER_LOCK_HEX`, decoded. -/
def founderLockingScript : Bytes :=
  beBytes 37 0x73a0209bbccb9b6620952fb8e5608e75b58589f4551ac5d1f8699cbe3f93dab94ff40f88ac

/-- `GENESIS_DEVELOPER_LOCK_HEX`, decoded. -/
def developerLockingScript : Bytes :=
  beBytes 37 0x73a02005277dd5198ed5b20f543520793539812865edf67b5b6da81cec743769427e8588ac

def buildGenesisCoinbase : Transaction :=
  Transaction.newCoinbase 0
    [⟨genesisFounderQuanta, founderLockingScript⟩, ⟨genesisDeveloperQuanta, developerLockingScript⟩]

section
variable (H : Hasher)

/-- The leaf of each output, with its index. -/
def genesisLeaves (txid : Hash256) : Nat → List TxOut → List Hash256
  | _, [] => []
  | idx, o :: os => UtxoSet.computeUtxoLeaf H ⟨txid, UInt32.ofNat idx⟩ o :: genesisLeaves txid (idx + 1) os

def computeGenesisUtxoRoot (coinbase : Transaction) : Hash256 :=
  UtxoSet.computeUtxoMerkleRoot H (genesisLeaves H (coinbase.txid H) 0 coinbase.outputs)

def buildGenesisBlock (difficultyTarget : UInt32) : Block where
  header := ⟨1, Hash256.zero, H (buildGenesisCoinbase.txid H).bytes, computeGenesisUtxoRoot H buildGenesisCoinbase, 0,
    difficultyTarget, 0⟩
  transactions := [buildGenesisCoinbase]

end

/-- The genesis coinbase, block commitment and block of the protocol documentation. -/
example : byteVal (buildGenesisCoinbase.txid Blake3.digest).bytes =
      0xf8c04455dd8982944f59cf017ac701dbb12c42aa2b022b353886d5382816fc21 ∧
    byteVal (buildGenesisBlock Blake3.digest 0x1d00ffff).header.transactionCommitment.bytes =
      0x72aa95d0b010318d5ad4418ae5a60eee7381e463920f20128d606c714daa4ca9 ∧
    byteVal ((buildGenesisBlock Blake3.digest 0x1d00ffff).header.hash Blake3.digest).bytes =
      0x4033f099ae89051a629c871e9af28a215898ff345505ffdbbce65c27a29585c9 := by decide +kernel

/-- On the empty set the genesis block applies whatever the digest, and the two
    allocations are all there is. -/
theorem genesis_applies (H : Hasher) (bits : UInt32) :
    ∃ s, UtxoSet.applyBlock H UtxoSet.new (buildGenesisBlock H bits).transactions 0 = .ok (s, 0) ∧
      s.total = totalGenesisQuanta.toNat := by
  have hcreated : UtxoSet.created H 0 true buildGenesisCoinbase =
      [(⟨buildGenesisCoinbase.txid H, 0⟩, ⟨⟨genesisFounderQuanta, founderLockingScript⟩, 0, true⟩),
        (⟨buildGenesisCoinbase.txid H, 1⟩, ⟨⟨genesisDeveloperQuanta, developerLockingScript⟩, 0, true⟩)] := rfl
  -- the two outpoints differ in their index, so both go in
  obtain ⟨s, hs⟩ := UtxoSet.insertAll_of_fresh (s := UtxoSet.new) (l := UtxoSet.created H 0 true buildGenesisCoinbase)
    (by rw [hcreated]; simp) (fun p _ => Table.get_empty _)
  have hcb : UtxoSet.applyCoinbase H UtxoSet.new buildGenesisCoinbase 0 = (s, .ok ()) := by
    rw [← hs]
    rfl
  have hap : UtxoSet.applyBlock H UtxoSet.new (buildGenesisBlock H bits).transactions 0 = .ok (s, 0) := by
    simp only [UtxoSet.applyBlock, buildGenesisBlock]
    rw [hcb]
    rfl
  refine ⟨s, hap, ?_⟩
  rw [UtxoSet.insertAll_total hs, UtxoSet.total_new, hcreated]
  simp only [UtxoSet.valueSum, List.map_cons, List.map_nil, List.sum_cons, List.sum_nil]
  decide

end Scytale
