import Mathlib.Data.List.Nodup
import Mathlib.Data.List.Perm.Basic
import Pintos.LibKernel.Hash

namespace Pintos.LibKernel.Hash

open Function List Hash

theorem flatMap_perm_cons {α ι : Type} {is : List ι} {f g : ι → List α} {i : ι} {e : α}
    (hnodup : is.Nodup) (hi : i ∈ is) (hadd : f i ~ e :: g i) (hrest : ∀ j, j ≠ i → f j = g j) :
    is.flatMap f ~ e :: is.flatMap g := by
  induction is with
  | nil => simp at hi
  | cons k is ih =>
    have hcons := nodup_cons.mp hnodup
    rw [flatMap_cons, flatMap_cons]
    by_cases hk : k = i
    · subst hk
      have hsame : is.flatMap f = is.flatMap g := by
        apply flatMap_congr
        intro j hj
        exact hrest j fun hjk => hcons.1 (hjk ▸ hj)
      rw [hsame]
      exact hadd.append_right _
    · have hmem : i ∈ is := (mem_cons.mp hi).resolve_left fun hik => hk hik.symm
      rw [hrest k hk]
      exact ((ih hcons.2 hmem).append_left (g k)).trans perm_middle

variable {α κ : Type} {h : Hash α} {key : α → κ}

theorem elems_pushFront (hpos : 0 < h.bucketCnt) (e : α) :
    (h.pushFront e).elems ~ e :: h.elems := by
  apply flatMap_perm_cons nodup_range (mem_range.mpr (h.bucketIdx_lt e hpos))
  · simp [pushFront, findBucket]
  · intro j hj
    simp [pushFront, update_of_ne hj]

theorem elems_foldl_pushFront (hpos : 0 < h.bucketCnt) (es : List α) :
    (es.foldl pushFront h).elems ~ es ++ h.elems := by
  induction es generalizing h with
  | nil => exact Perm.refl _
  | cons e es ih =>
    have hrest : (es.foldl pushFront (h.pushFront e)).elems ~ es ++ (h.pushFront e).elems :=
      ih (h := h.pushFront e) hpos
    exact hrest.trans (((elems_pushFront hpos e).append_left es).trans perm_middle)

theorem elems_rehash (h : Hash α) (mem : Bool) : (h.rehash mem).elems ~ h.elems := by
  unfold rehash
  split
  · exact Perm.refl _
  · have hmoved := elems_foldl_pushFront
      (h := { h with bucketCnt := bestCnt h.elemCnt, buckets := fun _ => [] })
      (bestCnt_pos _) h.elems
    have hempty : elems { h with bucketCnt := bestCnt h.elemCnt, buckets := fun _ => [] } = [] := by
      simp [elems]
    rwa [hempty, append_nil] at hmoved

theorem foldl_pushFront_elemCnt (h : Hash α) (es : List α) :
    (es.foldl pushFront h).elemCnt = h.elemCnt := by
  induction es generalizing h with
  | nil => rfl
  | cons e es ih => exact ih (h.pushFront e)

theorem rehash_elemCnt (h : Hash α) (mem : Bool) : (h.rehash mem).elemCnt = h.elemCnt := by
  unfold rehash
  split
  · rfl
  · exact foldl_pushFront_elemCnt _ _

theorem perm_cons_eraseP {p : α → Bool} {l : List α} {x : α} (hfind : l.find? p = some x) :
    l ~ x :: l.eraseP p := by
  obtain ⟨hx, before, after, rfl, hbefore⟩ := find?_eq_some_iff_append.mp hfind
  have hnot : ∀ a ∈ before, ¬ p a = true := by
    intro a ha
    simpa using hbefore a ha
  rw [eraseP_append_right _ hnot, eraseP_cons_of_pos hx]
  exact perm_middle

theorem elems_removeElem (hpos : 0 < h.bucketCnt) {e x : α} (hfind : h.find e = some x) :
    h.elems ~ x :: (h.removeElem e).elems := by
  apply flatMap_perm_cons nodup_range (mem_range.mpr (h.bucketIdx_lt e hpos))
  · simp only [Hash.removeElem, update_self]
    exact perm_cons_eraseP hfind
  · intro j hj
    simp [Hash.removeElem, update_of_ne hj]

theorem Placed.removeElem (hp : h.Placed) (e : α) : (h.removeElem e).Placed where
  pos := hp.pos
  placed i x hx := by
    show h.bucketIdx x = i
    apply hp.placed i x
    by_cases hi : i = h.bucketIdx e
    · subst hi
      simp only [Hash.removeElem, update_self] at hx
      exact mem_of_mem_eraseP hx
    · simpa only [Hash.removeElem, update_of_ne hi] using hx

-- A table whose comparison says whether two keys are the same, and whose hash looks at
-- the key alone.
structure KeyedBy (h : Hash α) (key : α → κ) : Prop extends h.Placed where
  equal_iff : ∀ a b, h.equal a b ↔ key a = key b
  hash_key : ∀ a b, key a = key b → h.hash a = h.hash b
  counted : h.elemCnt = h.elems.length
  nodup : (h.elems.map key).Nodup

namespace KeyedBy

theorem init {hash : α → BitVec 32} {less : α → α → Bool}
    (hequal : ∀ a b, (init hash less).equal a b ↔ key a = key b)
    (hhash : ∀ a b, key a = key b → hash a = hash b) : (init hash less).KeyedBy key where
  toPlaced := Placed.init hash less
  equal_iff := hequal
  hash_key := hhash
  counted := rfl
  nodup := nodup_nil

section

variable (hk : h.KeyedBy key)
include hk

theorem transfer {h' : Hash α} (hp : h'.Placed) (hhash : h'.hash = h.hash)
    (hless : h'.less = h.less) (hcnt : h'.elemCnt = h'.elems.length)
    (hnodup : (h'.elems.map key).Nodup) : h'.KeyedBy key where
  toPlaced := hp
  equal_iff a b := by
    rw [← hk.equal_iff, equal, equal, hless]
  hash_key a b hab := by
    rw [hhash]
    exact hk.hash_key a b hab
  counted := hcnt
  nodup := hnodup

theorem rehash (mem : Bool) : (h.rehash mem).KeyedBy key := by
  have hperm := h.elems_rehash mem
  apply hk.transfer (hk.toPlaced.rehash mem).1 (h.rehash_same mem).1 (h.rehash_same mem).2
  · rw [rehash_elemCnt, hk.counted, hperm.length_eq]
  · exact (hperm.map key).nodup_iff.mpr hk.nodup

theorem find_eq_some_iff (e x : α) : h.find e = some x ↔ x ∈ h.elems ∧ key x = key e := by
  constructor
  · intro hfind
    obtain ⟨hmem, hequal⟩ := hk.toPlaced.find_eq_some hfind
    exact ⟨hmem, (hk.equal_iff x e).mp hequal⟩
  · rintro ⟨hmem, hkey⟩
    have hsome : (h.find e).isSome := by
      rw [hk.toPlaced.find_isSome_iff fun a b hab => hk.hash_key a b ((hk.equal_iff a b).mp hab)]
      exact ⟨x, hmem, (hk.equal_iff x e).mpr hkey⟩
    obtain ⟨y, hy⟩ := Option.isSome_iff_exists.mp hsome
    obtain ⟨hmem', hequal⟩ := hk.toPlaced.find_eq_some hy
    have hsame : key y = key x := ((hk.equal_iff y e).mp hequal).trans hkey.symm
    rw [hy, inj_on_of_nodup_map hk.nodup hmem' hmem hsame]

theorem find_eq_none_iff (e : α) : h.find e = none ↔ ∀ x ∈ h.elems, key x ≠ key e := by
  rw [Option.eq_none_iff_forall_ne_some]
  constructor
  · intro hnone x hx hkey
    exact hnone x ((hk.find_eq_some_iff e x).mpr ⟨hx, hkey⟩)
  · intro hne x hx
    obtain ⟨hmem, hkey⟩ := (hk.find_eq_some_iff e x).mp hx
    exact hne x hmem hkey

theorem insertElem {new : α} (hnone : h.find new = none) : (h.insertElem new).KeyedBy key := by
  have hperm : (h.insertElem new).elems ~ new :: h.elems := elems_pushFront hk.pos new
  apply hk.transfer (hk.toPlaced.insertElem new) rfl rfl
  · rw [hperm.length_eq, length_cons, ← hk.counted]
    rfl
  · apply (hperm.map key).nodup_iff.mpr
    rw [map_cons, nodup_cons]
    refine ⟨?_, hk.nodup⟩
    intro hmem
    obtain ⟨x, hx, hkey⟩ := mem_map.mp hmem
    exact (hk.find_eq_none_iff new).mp hnone x hx hkey

theorem removeElem {e x : α} (hfind : h.find e = some x) : (h.removeElem e).KeyedBy key := by
  have hperm := elems_removeElem hk.pos hfind
  have hnodup := (hperm.map key).nodup_iff.mp hk.nodup
  have hlength := hperm.length_eq
  apply hk.transfer (hk.toPlaced.removeElem e) rfl rfl
  · show h.elemCnt - 1 = _
    rw [hk.counted, hlength, length_cons, Nat.add_sub_cancel]
  · exact (nodup_cons.mp hnodup).2

theorem insert_of_none {new : α} (hnone : h.find new = none) (mem : Bool) :
    (h.insert new mem).2 = none ∧ (h.insert new mem).1.KeyedBy key ∧
      (h.insert new mem).1.elems ~ new :: h.elems := by
  simp only [insert, hnone]
  exact ⟨trivial, (hk.insertElem hnone).rehash mem,
    (elems_rehash _ mem).trans (elems_pushFront hk.pos new)⟩

theorem insert_of_some {new old : α} (hsome : h.find new = some old) (mem : Bool) :
    (h.insert new mem).2 = some old ∧ (h.insert new mem).1.KeyedBy key ∧
      (h.insert new mem).1.elems ~ h.elems := by
  simp only [insert, hsome]
  exact ⟨trivial, hk.rehash mem, elems_rehash h mem⟩

theorem delete_of_some {e x : α} (hfind : h.find e = some x) (mem : Bool) :
    (h.delete e mem).2 = some x ∧ (h.delete e mem).1.KeyedBy key ∧
      h.elems ~ x :: (h.delete e mem).1.elems := by
  simp only [delete, hfind]
  exact ⟨trivial, (hk.removeElem hfind).rehash mem,
    (elems_removeElem hk.pos hfind).trans ((elems_rehash _ mem).symm.cons x)⟩

end

end KeyedBy

end Pintos.LibKernel.Hash
