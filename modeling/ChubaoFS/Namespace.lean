import Mathlib.Algebra.Order.BigOperators.Group.Finset
import ChubaoFS.Rpc

namespace ChubaoFS

open Finset (univ mem_univ)

variable {n : Nat} {parentID x : UInt64} {name : Bytes} {q : Fin n}

/-- The inodes and dentries of a volume, partition by partition, without what the namespace
operations do not read. -/
structure Namespace (n : Nat) where
  node : Fin n → UInt64 → Option InodeCell
  dents : Fin n → DentryTree

namespace Namespace

def setNode (s : Namespace n) (p : Fin n) (ino : UInt64) (i : Option InodeCell) : Namespace n :=
  { s with node := fun q x => if q = p ∧ x = ino then i else s.node q x }

def setDents (s : Namespace n) (p : Fin n) (t : DentryTree) : Namespace n :=
  { s with dents := fun q => if q = p then t else s.dents q }

def dentryAt? (s : Namespace n) (p : Fin n) (parentID : UInt64) (name : Bytes) : Option Dentry :=
  (s.dents p).get? (dentryKey parentID name)

def names (s : Namespace n) (ino : UInt64) : Nat :=
  ∑ p, (s.dents p).items.countP fun d => d.inode = ino

def children (s : Namespace n) (ino : UInt64) : Nat :=
  ∑ p, (s.dents p).items.countP fun d => d.parentId = ino

section

variable (s : Namespace n)

@[simp] theorem dents_setNode (p : Fin n) (ino : UInt64) (i : Option InodeCell) :
    (s.setNode p ino i).dents = s.dents := rfl

theorem node_setNode (p q : Fin n) (ino x : UInt64) (i : Option InodeCell) :
    (s.setNode p ino i).node q x = if q = p ∧ x = ino then i else s.node q x := rfl

@[simp] theorem node_setNode_self (p : Fin n) (ino : UInt64) (i : Option InodeCell) :
    (s.setNode p ino i).node p ino = i := if_pos ⟨rfl, rfl⟩

end

variable {p : Fin n} {ino : UInt64}

section

variable (s : Namespace n)

theorem node_setNode_of_ne (h : x ≠ ino) (i : Option InodeCell) :
    (s.setNode p ino i).node q x = s.node q x :=
  if_neg fun hc => h hc.2

@[simp] theorem dents_setDents_self (p : Fin n) (t : DentryTree) : (s.setDents p t).dents p = t :=
    if_pos rfl

theorem dents_setDents (p q : Fin n) (t : DentryTree) :
    (s.setDents p t).dents q = if q = p then t else s.dents q := rfl

@[simp] theorem setNode_setNode (p : Fin n) (ino : UInt64) (i j : Option InodeCell) :
    (s.setNode p ino i).setNode p ino j = s.setNode p ino j := by
  unfold setNode
  congr 1
  funext q x
  by_cases h : q = p ∧ x = ino
  · simp only [if_pos h]
  · simp only [if_neg h]

theorem setNode_comm (h : x ≠ ino) (i j : Option InodeCell) :
    (s.setNode p ino i).setNode q x j = (s.setNode q x j).setNode p ino i := by
  unfold setNode
  congr 1
  funext r y
  by_cases hx : r = q ∧ y = x
  · have hi : ¬ (r = p ∧ y = ino) := fun hc => h (hx.2.symm.trans hc.2)
    simp only [if_pos hx, if_neg hi]
  · simp only [if_neg hx]

theorem setDents_setNode (p q : Fin n) (ino : UInt64) (i : Option InodeCell) (t : DentryTree) :
    (s.setNode p ino i).setDents q t = (s.setDents q t).setNode p ino i := rfl

@[simp] theorem setDents_setDents (p : Fin n) (t u : DentryTree) :
    (s.setDents p t).setDents p u = s.setDents p u := by
  unfold setDents
  congr 1
  funext q
  by_cases h : q = p
  · simp only [if_pos h]
  · simp only [if_neg h]

end

variable {s : Namespace n}

theorem setDents_eq_self {t : DentryTree} (h : s.dents p = t) : s.setDents p t = s := by
  unfold setDents
  have hd : (fun q => if q = p then t else s.dents q) = s.dents := by
    funext q
    split
    next hc => rw [hc, h]
    · rfl
  rw [hd]

variable {d : Dentry}

section

variable (h : s.dentryAt? p parentID name = some d)
include h

theorem key_of_dentryAt? : d.key = dentryKey parentID name := by
  unfold dentryAt? at h
  exact OrdTree.key_of_get? h

theorem parentId_of_dentryAt? : d.parentId = parentID ∧ d.name = name :=
  dentryKey_inj.mp (key_of_dentryAt? h)

end

variable (s)

theorem sum_setDents (p : Fin n) (t : DentryTree) (f : DentryTree → Nat) :
    ∑ q, f ((s.setDents p t).dents q) + f (s.dents p) = ∑ q, f (s.dents q) + f t := by
  have hrest : ∑ q ∈ univ.erase p, f ((s.setDents p t).dents q) =
      ∑ q ∈ univ.erase p, f (s.dents q) := by
    apply Finset.sum_congr rfl
    intro q hq
    rw [dents_setDents, if_neg (Finset.ne_of_mem_erase hq)]
  have hnew := Finset.add_sum_erase univ (fun q => f ((s.setDents p t).dents q))
    (mem_univ p)
  have hold := Finset.add_sum_erase univ (fun q => f (s.dents q)) (mem_univ p)
  simp only [dents_setDents_self] at hnew
  omega

@[simp] theorem names_setNode (p : Fin n) (ino x : UInt64) (i : Option InodeCell) :
    (s.setNode p ino i).names x = s.names x := rfl

variable {s}

theorem names_insert (h : (s.dents p).get? d.key = none) (x : UInt64) :
    (s.setDents p ((s.dents p).insert d)).names x = s.names x + if d.inode = x then 1 else 0 := by
  have hsum := s.sum_setDents p ((s.dents p).insert d) fun t => t.items.countP fun d => d.inode = x
  have hcount := OrdTree.countP_insert_new h fun d => decide (d.inode = x)
  simp only [decide_eq_true_eq] at hcount
  unfold names
  omega

theorem names_erase {k : ℕ ×ₗ List ℕ} (h : (s.dents p).get? k = some d) (x : UInt64) :
    s.names x = (s.setDents p ((s.dents p).erase k)).names x + if d.inode = x then 1 else 0 := by
  have hsum := s.sum_setDents p ((s.dents p).erase k) fun t => t.items.countP fun d => d.inode = x
  have hcount := OrdTree.countP_erase h fun d => decide (d.inode = x)
  simp only [decide_eq_true_eq] at hcount
  unfold names
  omega

theorem names_replace {d' : Dentry} (h : (s.dents p).get? d'.key = some d) (x : UInt64) :
    (s.setDents p ((s.dents p).insert d')).names x + (if d.inode = x then 1 else 0) =
      s.names x + if d'.inode = x then 1 else 0 := by
  have hsum := s.sum_setDents p ((s.dents p).insert d')
    fun t => t.items.countP fun d => d.inode = x
  have hcount := OrdTree.countP_insert_replace h fun d => decide (d.inode = x)
  simp only [decide_eq_true_eq] at hcount
  unfold names
  omega

theorem names_pos_iff : 0 < s.names ino ↔ ∃ p, ∃ d ∈ (s.dents p).items, d.inode = ino := by
  simp only [names, Nat.pos_iff_ne_zero, ne_eq, Finset.sum_eq_zero_iff, mem_univ,
    true_implies, List.countP_eq_zero, decide_eq_true_eq, not_forall, not_not, exists_prop]

end Namespace
end ChubaoFS
