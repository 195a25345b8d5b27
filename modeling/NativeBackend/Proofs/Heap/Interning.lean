import Mathlib.Data.List.Forall2
import Mathlib.Data.List.Nodup
import NativeBackend.Heap.Emit
import NativeBackend.Proofs.Steps

namespace NativeBackend.Heap

open Steps

def Keeps (h h' : Heap) : Prop := ∀ (k : Nat) id, h.interned[k]? = some id → h'.interned[k]? = some id

structure Extends (new : ObjectId → Prop) (h h' : Heap) : Prop where
  store : h'.store = h.store
  emitted : h'.emitted = h.emitted
  strings : h'.strings = h.strings
  interned : ∃ more, h'.interned = h.interned ++ more ∧ ∀ id ∈ more, new id
  nodup : h.interned.Nodup → h'.interned.Nodup

namespace Extends

variable {new new' : ObjectId → Prop} {h h' h'' : Heap}

theorem refl (h : Heap) : Extends new h h := ⟨rfl, rfl, rfl, ⟨[], by simp⟩, id⟩

theorem trans (first : Extends new h h') (second : Extends new h' h'') : Extends new h h'' := by
  obtain ⟨more, hmore, hnew⟩ := first.interned
  obtain ⟨more', hmore', hnew'⟩ := second.interned
  refine ⟨second.store.trans first.store, second.emitted.trans first.emitted, second.strings.trans first.strings,
    ⟨more ++ more', ?_⟩, second.nodup ∘ first.nodup⟩
  refine ⟨by rw [hmore', hmore, List.append_assoc], fun id hid => ?_⟩
  exact (List.mem_append.1 hid).elim (hnew id) (hnew' id)

theorem mono (he : Extends new h h') (himp : ∀ id, new id → new' id) : Extends new' h h' := by
  obtain ⟨more, hmore, hnew⟩ := he.interned
  exact ⟨he.store, he.emitted, he.strings, ⟨more, hmore, fun id hid => himp id (hnew id hid)⟩, he.nodup⟩

theorem keeps (he : Extends new h h') : Keeps h h' := by
  intro k id hk
  obtain ⟨more, hmore, -⟩ := he.interned
  rw [hmore, List.getElem?_append_left (List.getElem?_eq_some_iff.1 hk).1, hk]

end Extends

def Refers (h : Heap) : Option ObjectId → Constant → Prop
  | none, c => c = .null
  | some id, c => ∃ k, h.interned[k]? = some id ∧ c = .symbol (heapSymbol k)

theorem Refers.mono {h h' : Heap} {target : Option ObjectId} {c : Constant} (hr : Refers h target c)
    (hkeeps : Keeps h h') : Refers h' target c := by
  cases target with
  | none => exact hr
  | some id =>
      obtain ⟨k, hk, hc⟩ := hr
      exact ⟨k, hkeeps k id hk, hc⟩

theorem intern_extends (h : Heap) (id : ObjectId) :
    Extends (· = id) h (h.intern id).2 ∧ (h.intern id).2.interned[(h.intern id).1]? = some id := by
  rw [intern]
  cases hnumber : h.interned.idxOf? id with
  | some number =>
      obtain ⟨hlt, hid, -⟩ := List.idxOf?_eq_some_iff.1 hnumber
      exact ⟨.refl h, List.getElem?_eq_some_iff.2 ⟨hlt, hid⟩⟩
  | none =>
      refine ⟨⟨rfl, rfl, rfl, ⟨[id], rfl, by simp⟩, fun hnodup => ?_⟩, by simp⟩
      have hnot := List.idxOf?_eq_none_iff.1 hnumber
      exact List.nodup_append.2 ⟨hnodup, List.nodup_singleton _, by
        rintro x hx _ hy rfl
        exact hnot (List.mem_singleton.1 hy ▸ hx)⟩

theorem reference_eq_ok {target : Option ObjectId} {h h' : Heap} {c : Constant}
    (hr : reference target h = .ok c h') :
    Extends (target = some ·) h h' ∧ Refers h' target c := by
  cases target with
  | none =>
      cases hr
      exact ⟨.refl h, rfl⟩
  | some id =>
      obtain ⟨hextends, hnumber⟩ := h.intern_extends id
      cases hr
      exact ⟨hextends.mono fun id' hid => hid ▸ rfl, _, hnumber, rfl⟩

theorem references_eq_ok {targets : List (Option ObjectId)} {h h' : Heap} {cs : List Constant}
    (hr : references targets h = .ok cs h') :
    Extends (some · ∈ targets) h h' ∧ List.Forall₂ (Refers h') targets cs := by
  induction targets generalizing h cs with
  | nil =>
      cases hr
      exact ⟨.refl _, .nil⟩
  | cons target rest ih =>
      obtain ⟨c, h₁, hc, hrest⟩ := bind_eq_ok.1 hr
      obtain ⟨cs', h₂, hcs, hdone⟩ := bind_eq_ok.1 hrest
      cases hdone
      obtain ⟨hextends, href⟩ := reference_eq_ok hc
      obtain ⟨hextends', hrefs⟩ := ih hcs
      refine ⟨(hextends.mono ?_).trans (hextends'.mono ?_), .cons (href.mono hextends'.keeps) hrefs⟩
      · rintro id rfl
        exact List.mem_cons_self
      · exact fun id => List.mem_cons_of_mem _

end NativeBackend.Heap
