import ChubaoFS.ExtentBytes

namespace ChubaoFS

/-! What the keys that a file gives up for deletion have in common with those it keeps. A data node
deletes a normal extent as a whole. -/

namespace ExtentKey

/-- `d` begins inside `k`, in 64-bit arithmetic. -/
def hits (k d : ExtentKey) : Bool := k.key ≤ d.key && d.key < k.fileEnd.toNat

theorem sameExtent_congr {x y : ExtentKey} (h : y.sameExtent x = true) (z : ExtentKey) :
    y.sameExtent z = x.sameExtent z := by
  unfold sameExtent at h ⊢
  obtain ⟨hp, he⟩ := Bool.and_eq_true_iff.mp h
  rw [eq_of_beq hp, eq_of_beq he]

end ExtentKey

namespace ExtentsTree

variable {e : ExtentsTree} {x : ExtentKey} {keys : List ExtentKey} {length : UInt64}

theorem mem_append_snd {k : ExtentKey} :
    x ∈ (append e k).2 ↔ x ∈ e.items ∧ k.hits x = true ∧ x.sameExtent k = false := by
  unfold append OrdTree.ascendRange ExtentKey.hits
  dsimp only
  rw [List.mem_filter, List.mem_filter, and_assoc, Bool.not_eq_true', Bool.and_eq_true,
    decide_eq_true_eq, decide_eq_true_eq, decide_eq_true_eq]

/-- A key that hits a normal extent other than its own hits all of that extent's keys. -/
def HitsWhole (e : ExtentsTree) : List ExtentKey → Prop
  | [] => True
  | k :: ks =>
    (∀ d ∈ e.items, isTinyExtent d.extentId = false → k.hits d = true → d.sameExtent k = false →
      (∀ d' ∈ e.items, d'.sameExtent d = true → k.hits d' = true) ∧
        ∀ k' ∈ ks, k'.sameExtent d = false) ∧
      HitsWhole (append e k).1 ks

instance decidableHitsWhole : ∀ e ks, Decidable (HitsWhole e ks)
  | _, [] => inferInstanceAs (Decidable True)
  | e, k :: ks =>
    have := decidableHitsWhole (append e k).1 ks
    inferInstanceAs (Decidable (_ ∧ _))

/-- The tree holds no key of the extent of `x`. -/
def Without (e : ExtentsTree) (x : ExtentKey) : Prop := ∀ y ∈ e.items, y.sameExtent x = false

theorem Without.appendAll (h : e.Without x) (hk : ∀ k ∈ keys, k.sameExtent x = false) :
    Without (appendAll e keys).1 x := by
  induction keys generalizing e with
  | nil => exact h
  | cons k keys ih =>
    obtain ⟨hk, hkeys⟩ := List.forall_mem_cons.mp hk
    refine ih (fun y hy => ?_) hkeys
    obtain rfl | ⟨⟨hy, -⟩, -⟩ := mem_append.mp hy
    · exact hk
    · exact h y hy

theorem without_of_mem_appendAll (h : e.HitsWhole keys) (hx : x ∈ (appendAll e keys).2)
    (htiny : isTinyExtent x.extentId = false) : Without (appendAll e keys).1 x := by
  induction keys generalizing e with
  | nil => cases hx
  | cons k keys ih =>
    obtain hx | hx := List.mem_append.mp hx
    · obtain ⟨hxe, hhit, hext⟩ := mem_append_snd.mp hx
      obtain ⟨hall, hlater⟩ := h.1 x hxe htiny hhit hext
      have hfirst : Without (append e k).1 x := by
        intro y hy
        obtain rfl | ⟨⟨hy, hkept⟩, -⟩ := mem_append.mp hy
        · rw [ExtentKey.sameExtent_comm]
          exact hext
        · -- a key of this extent would have been taken along
          by_contra hsame
          have hsame := Bool.eq_true_of_not_eq_false hsame
          refine hkept (mem_append_snd.mpr ⟨hy, hall y hy hsame, ?_⟩)
          rw [ExtentKey.sameExtent_congr hsame]
          exact hext
      exact hfirst.appendAll hlater
    · exact ih h.2 hx

theorem exists_of_mem_truncate {y : ExtentKey} (hy : y ∈ (truncate e length).items) :
    ∃ d ∈ e.items, d.key < length.toNat ∧ y.sameExtent d = true := by
  have hitems := OrdTree.items_erase_from e length.toNat
  unfold truncate cutLast at hy
  generalize (e.ascendGreaterOrEqual (some length.toNat)).foldl (fun e d => e.erase d.key) e = e'
    at hitems hy
  have hold (d : ExtentKey) (hd : d ∈ e'.items) : d ∈ e.items ∧ d.key < length.toNat := by
    rwa [hitems, List.mem_filter, decide_eq_true_eq] at hd
  have hsame (d : ExtentKey) (hd : d ∈ e'.items) :
      ∃ d' ∈ e.items, d'.key < length.toNat ∧ d.sameExtent d' = true :=
    ⟨d, (hold d hd).1, (hold d hd).2, d.sameExtent_self⟩
  cases hm : e'.max? with
  | none =>
    rw [hm] at hy
    exact hsame y hy
  | some m =>
    rw [hm] at hy
    dsimp only at hy
    split at hy
    · obtain rfl | ⟨hy, -⟩ := OrdTree.mem_insert.mp hy
      · obtain ⟨hme, hlt⟩ := hold m (OrdTree.mem_of_max? hm)
        exact ⟨m, hme, hlt, m.sameExtent_self⟩
      · exact hsame y hy
    · exact hsame y hy

/-- A cut that takes a key of a normal extent takes them all. -/
def CutsWhole (e : ExtentsTree) (length : UInt64) : Prop :=
  ∀ d ∈ e.items, isTinyExtent d.extentId = false → length.toNat ≤ d.key →
    ∀ d' ∈ e.items, d'.sameExtent d = true → length.toNat ≤ d'.key

instance (e : ExtentsTree) (length : UInt64) : Decidable (e.CutsWhole length) :=
  inferInstanceAs (Decidable (∀ d ∈ e.items, _))

theorem without_of_mem_truncate (h : e.CutsWhole length)
    (hx : x ∈ e.ascendGreaterOrEqual (some length.toNat))
    (htiny : isTinyExtent x.extentId = false) : Without (truncate e length) x := by
  obtain ⟨hxe, hle⟩ := List.mem_filter.mp hx
  intro y hy
  obtain ⟨d, hd, hlt, hyd⟩ := exists_of_mem_truncate hy
  rw [ExtentKey.sameExtent_congr hyd]
  by_contra hsame
  have := h x hxe htiny (of_decide_eq_true hle) d hd (Bool.eq_true_of_not_eq_false hsame)
  omega

end ExtentsTree

namespace MetaPartition

def TakesWhole (ino : UInt64) (mp : MetaPartition) : ExtentEvent → Prop
  | .append keys _ => (mp.extentsAt ino).HitsWhole keys.items
  | .truncate length _ => (mp.extentsAt ino).CutsWhole length

instance (ino : UInt64) (mp : MetaPartition) (e : ExtentEvent) : Decidable (mp.TakesWhole ino e) :=
  match e with
  | .append keys _ => inferInstanceAs (Decidable ((mp.extentsAt ino).HitsWhole keys.items))
  | .truncate length _ => inferInstanceAs (Decidable ((mp.extentsAt ino).CutsWhole length))

theorem without_of_run {mp : MetaPartition} {ino : UInt64} {i : Inode} (h : mp.FileAt ino i)
    {e : ExtentEvent} (he : mp.TakesWhole ino e) {x : ExtentKey} (hx : x ∈ (e.run i).2)
    (htiny : isTinyExtent x.extentId = false) : (e.run i).1.extents.Without x := by
  cases e with
  | append keys ct =>
    unfold TakesWhole at he
    rw [h.extentsAt] at he
    obtain ⟨hext, hdrop⟩ := i.appendKeys_eq keys.items ct
    unfold ExtentEvent.run at hx ⊢
    rw [hdrop] at hx
    rw [hext]
    exact ExtentsTree.without_of_mem_appendAll he hx htiny
  | truncate length ct =>
    unfold TakesWhole at he
    rw [h.extentsAt] at he
    exact ExtentsTree.without_of_mem_truncate he hx htiny

/-- In every run whose steps meet the condition, no key of a normal extent is sent to be deleted
while the file still has a key of that extent. -/
theorem sent_extents_unused {mp mp' : MetaPartition} {ino : UInt64} {i₀ : Inode}
    (h : mp.FileAt ino i₀) (hr : Reach (extentStep ino) (TakesWhole ino) mp mp') (e : ExtentEvent)
    (he : mp'.TakesWhole ino e) :
    ∃ i' refs, (mp'.apply (e.command ino)).value.inode? ino = some i' ∧
      (mp'.apply (e.command ino)).extDelCh = mp'.extDelCh ++ refs ∧
      ∀ x ∈ refs.map (mp'.apply (e.command ino)).exts.obj, isTinyExtent x.extentId = false →
        ∀ y ∈ i'.extents.items, y.sameExtent x = false := by
  obtain ⟨i, hat⟩ : ∃ i, mp'.FileAt ino i := by
    refine hr.invariant (P := fun mp => ∃ i, mp.FileAt ino i) ⟨i₀, h⟩ ?_
    rintro mp e _ ⟨i, hat⟩ - hs
    obtain rfl := Option.some.inj hs
    exact ⟨_, hat.step e⟩
  obtain ⟨refs, hch, hsent⟩ := hat.sent e
  refine ⟨_, refs, (hat.step e).found, hch, fun x hx htiny => ?_⟩
  rw [hsent] at hx
  exact without_of_run hat he hx htiny

theorem sent_extents_unused_overwrite : ∃ mp' : MetaPartition,
    Reach (extentStep 5) (TakesWhole 5) newFile5 mp' ∧
      (mp'.extentsAt 5).items = [⟨0, 1, 71, 0, 100, 0⟩, ⟨100, 1, 72, 0, 50, 0⟩] ∧
      ∃ i' refs, (mp'.apply ((appendOne 100 73 80).command 5)).value.inode? 5 = some i' ∧
        (mp'.apply ((appendOne 100 73 80).command 5)).extDelCh = mp'.extDelCh ++ refs ∧
        ∀ x ∈ refs.map (mp'.apply ((appendOne 100 73 80).command 5)).exts.obj,
          isTinyExtent x.extentId = false → ∀ y ∈ i'.extents.items, y.sameExtent x = false := by
  refine ⟨_, .of_checked [appendOne 0 71 100, appendOne 100 72 50] rfl .start, ?_, ?_⟩
  · rfl
  · exact sent_extents_unused fileAt_newFile5
      (.of_checked [appendOne 0 71 100, appendOne 100 72 50] rfl .start) _ (by decide)

/-- Two keys of one extent, of which a truncation drops the second only. -/
theorem used_extent_sent : ∃ mp' : MetaPartition,
    Reach (extentStep 5) (fun _ e => e.positive = true) newFile5 mp' ∧
      ((mp'.apply (ExtentEvent.command 5 (.truncate 15 0))).extentsAt 5).items =
        [⟨0, 1, 71, 0, 10, 0⟩] ∧
      (mp'.apply (ExtentEvent.command 5 (.truncate 15 0))).extDelCh.map
        (mp'.apply (ExtentEvent.command 5 (.truncate 15 0))).exts.obj = [⟨20, 1, 71, 0, 10, 0⟩] ∧
      isTinyExtent 71 = false := by
  refine ⟨_, .of_checked [appendOne 0 71 10, appendOne 20 71 10] rfl .start, ?_, ?_, ?_⟩
  · rfl
  · rfl
  · rfl

end MetaPartition
end ChubaoFS
