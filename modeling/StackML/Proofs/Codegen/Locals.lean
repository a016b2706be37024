import StackML.Proofs.Codegen.Follow

/-!
Values in local words. A local that holds a value does so as long as the words below the next free
slot are left alone, and the names of an environment stand for locals that hold their values.
-/

namespace StackML.Codegen

open Machine Semantics

variable {site : Site} {ip : Nat} {L L' S : List Word} {out : List Text} {v : Value} {line : Int}
variable {next : Nat} {l : Local} {t t' : LocalTable} {env : NameMap Value}

structure Held (next : Nat) (L : List Word) (l : Local) (v : Value) : Prop where
  slot : ∃ i : Nat, l.slot = i ∧ i + l.repr.width ≤ next ∧
    ∀ j w, (words l.repr v).reverse[j]? = some w → L[i + j]? = some w
  fits : Fits l.repr v
  filled : l.repr ≠ .void
  plain : l.self = none

namespace Held

theorem keeps (h : Held next L l v) (keeps : Keeps next L L') : Held next L' l v := by
  obtain ⟨i, slot, below, found⟩ := h.slot
  refine ⟨⟨i, slot, below, fun j w known => ?_⟩, h.fits, h.filled, h.plain⟩
  have inside : j < l.repr.width := by
    have bound := (List.getElem?_eq_some_iff.1 known).1
    rwa [List.length_reverse, length_words h.fits] at bound
  rw [keeps.below (i + j) (by omega)]
  exact found j w known

theorem mono (h : Held next L l v) {next' : Nat} (le : next ≤ next') : Held next' L l v := by
  obtain ⟨i, slot, below, found⟩ := h.slot
  exact ⟨⟨i, slot, by omega, found⟩, h.fits, h.filled, h.plain⟩

theorem rename (h : Held next L l v) (name : String) : Held next L { l with name } v :=
  ⟨h.slot, h.fits, h.filled, h.plain⟩

theorem leads {r : Rep} (h : Held next L l v) (rep : l.repr = r) (small : L.length ≤ 65536)
    (at_ : site.Located ip (loads l line)) :
    Leads site ⟨ip, L, S, out⟩ ⟨ip + 3, L, words r v ++ S, out⟩ := by
  obtain ⟨i, slot, -, found⟩ := h.slot
  obtain ⟨name, slot', repr, self⟩ := l
  obtain rfl : slot' = i := slot
  obtain rfl : repr = r := rep
  have less : ∀ {w}, L[i]? = some w → i < 65536 := fun inside => by
    have := (List.getElem?_eq_some_iff.1 inside).1
    omega
  have fits := h.fits
  have filled := h.filled
  cases fits with
  | int n =>
    have word := found 0 (.ofInt n) rfl
    exact .load1 at_ (.inl rfl) (less word) word
  | bool b =>
    have word := found 0 (.ofBool b) rfl
    exact .load1 at_ (.inl rfl) (less word) word
  | double bits =>
    have word := found 0 { data := bits } rfl
    exact .load2 at_ (less word) word (found 1 {} rfl)
  | ref =>
    have word := found 0 (.ofValue v) rfl
    exact .load1 at_ (.inr rfl) (less word) word
  | void => exact (filled rfl).elim

end Held

theorem keeps_set (L : List Word) (next i : Nat) (w : Word) (le : next ≤ i) :
    Keeps next L (L.set i w) :=
  ⟨List.length_set, fun j less => List.getElem?_set_ne (by omega)⟩

theorem store_leads {r : Rep} (name : String) (fits : Fits r v) (filled : r ≠ .void)
    (room : next + r.width ≤ L.length) (small : L.length ≤ 65536)
    (at_ : site.Located ip (stores ⟨name, next, r, none⟩ line)) :
    ∃ L', Keeps next L L' ∧ Held (next + r.width) L' ⟨name, next, r, none⟩ v ∧
      Leads site ⟨ip, L, words r v ++ S, out⟩ ⟨ip + 3, L', S, out⟩ := by
  have one : ∀ {w : Word} {op : Opcode}, r.width = 1 → words r v = [w] →
      op = .istore ∨ op = .astore → site.Located ip [⟨op, .word next, line⟩] →
      ∃ L', Keeps next L L' ∧ Held (next + r.width) L' ⟨name, next, r, none⟩ v ∧
        Leads site ⟨ip, L, words r v ++ S, out⟩ ⟨ip + 3, L', S, out⟩ := by
    intro w op width word known at_
    refine ⟨L.set next w, keeps_set L next next w (Nat.le_refl _),
      ⟨⟨next, rfl, Nat.le_refl _, fun j x found => ?_⟩, fits, filled, rfl⟩, ?_⟩
    · rw [word, List.reverse_singleton, List.getElem?_singleton] at found
      split at found
      · next zero =>
        cases found
        rw [zero, Nat.add_zero, List.getElem?_set_self (by omega)]
      · cases found
    · rw [word]
      exact .store1 at_ known (by omega) (by omega)
  cases fits with
  | int n => exact one rfl rfl (.inl rfl) at_
  | bool b => exact one rfl rfl (.inl rfl) at_
  | ref => exact one rfl rfl (.inr rfl) at_
  | double bits =>
    have wide : next + 2 ≤ L.length := room
    refine ⟨(L.set (next + 1) {}).set next { data := bits },
      (keeps_set L next (next + 1) {} (by omega)).trans (keeps_set _ next next _ (Nat.le_refl _)),
      ⟨⟨next, rfl, Nat.le_refl _, fun j x found => ?_⟩, .double bits, filled, rfl⟩,
      .store2 at_ (by omega) (by omega)⟩
    have inside : next < (L.set (next + 1) {}).length := by
      rw [List.length_set]
      omega
    obtain _ | _ | j := j
    · cases found
      exact List.getElem?_set_self inside
    · cases found
      rw [List.getElem?_set_ne (by omega), List.getElem?_set_self (by omega)]
    · cases found
  | void => exact (filled rfl).elim

/-! ### Environments -/

def Shelters (t : LocalTable) (L : List Word) (env : NameMap Value) : Prop :=
  ∀ name v, env.get? name = some v → name ≠ "" ∧ ∃ l, t.find? name = some l ∧ Held t.next L l v

namespace Shelters

theorem empty (t : LocalTable) (L : List Word) : Shelters t L .empty := by
  intro name v found
  cases found

theorem keeps (h : Shelters t L env) (keeps : Keeps t.next L L') : Shelters t L' env := by
  intro name v found
  obtain ⟨named, l, known, held⟩ := h name v found
  exact ⟨named, l, known, held.keeps keeps⟩

theorem of_entries (h : Shelters t L env) (entries : t'.entries = t.entries)
    (next : t'.next = t.next) : Shelters t' L env := by
  intro name v found
  obtain ⟨named, l, known, held⟩ := h name v found
  refine ⟨named, l, ?_, next ▸ held⟩
  unfold LocalTable.find? at known ⊢
  rw [entries, known]

theorem push (h : Shelters t L env) (named : l.name ≠ "") (le : t.next ≤ t'.next)
    (entries : t'.entries = l :: t.entries) (held : Held t'.next L l v) :
    Shelters t' L (env.insert l.name v) := by
  intro name x found
  rw [NameMap.get?_insert] at found
  unfold LocalTable.find?
  rw [entries, List.find?_cons]
  split at found
  · next same =>
    cases found
    subst same
    exact ⟨named, l, by simp, held⟩
  · next other =>
    obtain ⟨named, k, known, heldK⟩ := h name x found
    have apart : (l.name == name) = false := by simpa using Ne.symm other
    unfold LocalTable.find? at known
    exact ⟨named, k, by simpa [apart] using known, heldK.mono le⟩

theorem hide (h : Shelters t L env) (unnamed : l.name = "") (le : t.next ≤ t'.next)
    (entries : t'.entries = l :: t.entries) : Shelters t' L env := by
  intro name v found
  obtain ⟨named, k, known, held⟩ := h name v found
  have apart : (l.name == name) = false := by simpa [unnamed] using Ne.symm named
  refine ⟨named, k, ?_, held.mono le⟩
  unfold LocalTable.find? at known ⊢
  rw [entries, List.find?_cons]
  simpa [apart] using known

end Shelters

end StackML.Codegen
