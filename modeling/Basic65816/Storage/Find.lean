import Basic65816.Lib.Chain
import Basic65816.Machine.Variable

/-!
# Looking up a variable

An identifier is a list of words, and all but the last one have the continuation bit. `_VFCompare`
compares it with the name of a record, `_VFNext` follows the chain of its first word.

## Main definitions

* `Identifier`: the words of an identifier
* `Record`, `Record.At`: a record, and where it is in memory
* `chainOf`: the chain of an identifier

## Main results

* `vfCompare_spec`: a name matches exactly the identifier with the same words
* `vfNext_found`, `vfNext_missing`: the search along a chain
-/

namespace Basic65816

/-- The words of an identifier: all but the last one have the continuation bit. -/
inductive Identifier : List ℕ → Prop
  | last {w : ℕ} (hw : 0xC000 < w) (hcont : w &&& idContMask = 0) : Identifier [w]
  | more {w : ℕ} {ws : List ℕ} (hw : 0xC000 < w) (hcont : w &&& idContMask ≠ 0)
      (h : Identifier ws) : Identifier (w :: ws)

/-- A record of the variable store, and its name. -/
structure Record where
  address : ℕ
  name : ℕ
  words : List ℕ

/-- The record is in the memory, with its name. -/
structure Record.At (r : Record) (mem : Memory) : Prop where
  ident : Identifier r.words
  pointer : mem.word (r.address + 2) = r.name
  spelling : mem.WordsAt r.name r.words

/-- The number of the chain of an identifier that begins with `token`. -/
def chainOf (token : ℕ) : ℕ :=
  (token &&& (idTypeMask + idArrayMask)) / 256 + (token &&& blockHashMask)

theorem chainOf_lt (token : ℕ) : chainOf token < 64 := by
  have htype : token &&& (idTypeMask + idArrayMask) ≤ 0x3000 := Nat.and_le_right
  have hhash : token &&& blockHashMask ≤ 15 := Nat.and_le_right
  unfold chainOf
  omega

section

variable {m : Machine} {token y : ℕ} {us ws : List ℕ} {r : Record} {rs : List Record}

theorem hashTablePtr_eq (h : m.dBaseAddress + 0x100 ≤ 0x10000) (token : ℕ) :
    hashTablePtr m token = m.dBaseAddress + blockHashTable + 2 * chainOf token := by
  have htype : token &&& (idTypeMask + idArrayMask) ≤ 0x3000 := Nat.and_le_right
  have hhash : token &&& blockHashMask ≤ 15 := Nat.and_le_right
  unfold hashTablePtr chainOf add16 blockHashTable
  dsimp only
  omega

theorem Identifier.head (h : Identifier ws) :
    ∃ w us, ws = w :: us ∧ 0xC000 < w ∧ (w < 0xC01A + 1 → us = []) := by
  cases h with
  | last hw => exact ⟨_, _, rfl, hw, fun _ => rfl⟩
  | @more w us hw hcont =>
    refine ⟨w, us, rfl, hw, fun hlt => (hcont ?_).elim⟩
    interval_cases w <;> rfl

/-- **Comparing names**: two identifiers match when they have the same words. By induction on the
name; a name that ends earlier differs in the continuation bit. -/
theorem vfCompare_spec (hu : Identifier us) (hw : Identifier ws)
    (hus : m.bank.WordsAt (m.dTemp2 + y) us) (hws : m.bank.WordsAt (m.dCodePtr + y) ws)
    (hy : y + 2 * ws.length < 0x10000) : Settles (fun fuel => vfCompare fuel m y)
      (.ok (if us = ws then some (y + 2 * ws.length) else none)) := by
  induction hu generalizing y ws with
  | @last u _ hcu =>
    obtain ⟨hu, -⟩ := hus
    refine Settles.succ (.of_forall fun fuel => ?_)
    cases hw with
    | @last w =>
      obtain ⟨hw, -⟩ := hws
      rw [vfCompare, hu, hw]
      by_cases h : u = w
      · subst h
        rw [List.length_singleton] at hy ⊢
        rw [if_neg (not_not.mpr rfl), if_neg (not_not.mpr hcu), if_pos rfl, add16_eq hy]
      · rw [if_pos h, if_neg fun he => h (List.cons.inj he).1]
    | @more w ws _ hcw =>
      obtain ⟨hw, -⟩ := hws
      have h : u ≠ w := by
        rintro rfl
        exact hcw hcu
      rw [vfCompare, hu, hw]
      rw [if_pos h, if_neg fun he => h (List.cons.inj he).1]
  | @more u us _ hcu _ ih =>
    obtain ⟨hu, hus⟩ := hus
    cases hw with
    | @last w _ hcw =>
      obtain ⟨hw, -⟩ := hws
      have h : u ≠ w := by
        rintro rfl
        exact hcu hcw
      refine Settles.succ (.of_forall fun fuel => ?_)
      rw [vfCompare, hu, hw]
      rw [if_pos h, if_neg fun he => h (List.cons.inj he).1]
    | @more w ws _ _ hw' =>
      obtain ⟨hw, hws⟩ := hws
      rw [List.length_cons] at hy ⊢
      by_cases h : u = w
      · subst h
        have hrest := ih hw' (y := y + 2) hus hws (by omega)
        rw [show y + 2 + 2 * ws.length = y + 2 * (ws.length + 1) by omega] at hrest
        simp only [List.cons.injEq, true_and]
        refine hrest.unfold fun fuel => ?_
        rw [vfCompare, hu, hw]
        rw [if_neg (not_not.mpr rfl), if_pos hcu, add16_eq (by omega)]
      · refine Settles.succ (.of_forall fun fuel => ?_)
        rw [vfCompare, hu, hw]
        rw [if_pos h, if_neg fun he => h (List.cons.inj he).1]

/-- One record of the chain is compared with the identifier. -/
theorem vfNext_step {s : Result (Option ℕ × Machine)} (haddress : r.address ≠ 0)
    (hword : m.bank.word m.dTemp1 = r.address) (hr : r.At m.bank) (hw : Identifier ws)
    (hws : m.bank.WordsAt m.dCodePtr ws) (hb : m.dCodePtr + 2 * ws.length < 0x10000)
    (hfound : r.words = ws → s = .ok (some (add16 r.address 4), { m with
      dTemp1 := r.address, dTemp2 := r.name, dCodePtr := m.dCodePtr + 2 * ws.length }))
    (hnext : r.words ≠ ws → Settles (fun fuel => vfNext fuel
      { m with dTemp1 := r.address, dTemp2 := r.name }) s) :
    Settles (fun fuel => vfNext fuel m) s := by
  have hcompare := vfCompare_spec (m := { m with dTemp1 := r.address, dTemp2 := r.name }) (y := 0)
    hr.ident hw hr.spelling hws (by omega)
  have hrun : ∀ fuel, vfNext (fuel + 1) m =
      vfCompare fuel { m with dTemp1 := r.address, dTemp2 := r.name } 0 >>= fun o =>
        o.elim (vfNext fuel { m with dTemp1 := r.address, dTemp2 := r.name }) fun y =>
          .ok (some (add16 r.address 4), { m with
            dTemp1 := r.address, dTemp2 := r.name, dCodePtr := add16 y m.dCodePtr }) := by
    intro fuel
    rw [vfNext]
    dsimp only
    rw [hword, if_neg haddress, hr.pointer]
    congr 1
    funext o
    cases o <;> rfl
  refine Settles.unfold (hcompare.bind ?_) hrun
  by_cases h : r.words = ws
  · rw [if_pos h, hfound h]
    refine .of_forall fun fuel => ?_
    have hcode : add16 (0 + 2 * ws.length) m.dCodePtr = m.dCodePtr + 2 * ws.length := by
      rw [add16_eq (by omega)]
      omega
    dsimp only [Option.elim]
    rw [hcode]
  · rw [if_neg h]
    exact hnext h

/-- **The search fails** when no record of the chain has the name. -/
theorem vfNext_missing (hc : m.bank.ChainAt m.dTemp1 (rs.map Record.address))
    (hrs : ∀ r ∈ rs, r.At m.bank) (hw : Identifier ws) (hws : m.bank.WordsAt m.dCodePtr ws)
    (hb : m.dCodePtr + 2 * ws.length < 0x10000) (hne : ∀ r ∈ rs, r.words ≠ ws) :
    ∃ t t', Settles (fun fuel => vfNext fuel m) (.ok (none, { m with dTemp1 := t, dTemp2 := t' })) := by
  induction rs generalizing m with
  | nil =>
    refine ⟨m.dTemp1, m.dTemp2, Settles.succ (.of_forall fun fuel => ?_)⟩
    exact if_pos hc
  | cons r rs ih =>
    obtain ⟨haddress, hword, hc⟩ := hc
    obtain ⟨t, t', hset⟩ := ih (m := { m with dTemp1 := r.address, dTemp2 := r.name }) hc
      (fun s hs => hrs s (List.mem_cons_of_mem r hs)) hws hb
      (fun s hs => hne s (List.mem_cons_of_mem r hs))
    refine ⟨t, t', vfNext_step haddress hword (hrs r (by simp)) hw hws hb ?_ fun _ => hset⟩
    exact fun h => (hne r (by simp) h).elim

/-- **The search finds** the record with the name. -/
theorem vfNext_found (hc : m.bank.ChainAt m.dTemp1 (rs.map Record.address))
    (hrs : ∀ r ∈ rs, r.At m.bank) (hw : Identifier ws) (hws : m.bank.WordsAt m.dCodePtr ws)
    (hb : m.dCodePtr + 2 * ws.length < 0x10000) (hdistinct : (rs.map Record.words).Nodup)
    (hr : r ∈ rs) (hname : r.words = ws) :
    ∃ t t', Settles (fun fuel => vfNext fuel m) (.ok (some (add16 r.address 4), { m with
      dTemp1 := t, dTemp2 := t', dCodePtr := m.dCodePtr + 2 * ws.length })) := by
  induction rs generalizing m with
  | nil => cases hr
  | cons s rs ih =>
    obtain ⟨haddress, hword, hc⟩ := hc
    obtain ⟨hs, hdistinct⟩ := List.nodup_cons.mp hdistinct
    rcases List.mem_cons.mp hr with rfl | hr
    · refine ⟨_, _, vfNext_step haddress hword (hrs r (by simp)) hw hws hb (fun _ => rfl) ?_⟩
      exact fun h => (h hname).elim
    · obtain ⟨t, t', hset⟩ := ih (m := { m with dTemp1 := s.address, dTemp2 := s.name }) hc
        (fun s hs => hrs s (List.mem_cons_of_mem _ hs)) hws hb hdistinct hr
      refine ⟨t, t', vfNext_step haddress hword (hrs s (by simp)) hw hws hb ?_ fun _ => hset⟩
      intro h
      exact (hs (h.trans hname.symm ▸ List.mem_map_of_mem hr)).elim

/-- Any other identifier is looked up in its chain. -/
theorem variableFind_slow (h : 0xC01A + 1 ≤ m.token) (fuel : ℕ) :
    variableFind fuel m = vfNext fuel { m with
      dHashTablePtr := hashTablePtr m m.token, dTemp1 := hashTablePtr m m.token } := by
  rw [variableFind, if_neg (by omega), if_neg (by omega)]

/-- Skipping an identifier. -/
theorem vcSkipToken_spec (hw : Identifier ws) (hws : m.bank.WordsAt m.dCodePtr ws)
    (hb : m.dCodePtr + 2 * ws.length < 0x10000) : Settles (fun fuel => vcSkipToken fuel m)
      (.ok { m with dCodePtr := m.dCodePtr + 2 * ws.length }) := by
  induction hw generalizing m with
  | @last w _ hcont =>
    obtain ⟨hword, -⟩ := hws
    rw [List.length_singleton] at hb ⊢
    have hskip : m.skipToken = { m with dCodePtr := m.dCodePtr + 2 } := by
      rw [Machine.skipToken, add16_eq hb]
    refine Settles.succ (.of_forall fun fuel => ?_)
    rw [vcSkipToken, Machine.token, hword, if_neg (not_not.mpr hcont), hskip]
  | @more w ws _ hcont _ ih =>
    obtain ⟨hword, hws⟩ := hws
    rw [List.length_cons] at hb ⊢
    have hskip : m.skipToken = { m with dCodePtr := m.dCodePtr + 2 } := by
      rw [Machine.skipToken, add16_eq (by omega)]
    have hrest := ih (m := m.skipToken) (by rwa [hskip]) (by rw [hskip]; dsimp only; omega)
    rw [hskip] at hrest
    dsimp only at hrest
    rw [show m.dCodePtr + 2 + 2 * ws.length = m.dCodePtr + 2 * (ws.length + 1) by omega] at hrest
    refine hrest.unfold fun fuel => ?_
    rw [vcSkipToken, Machine.token, hword, if_pos hcont, hskip]

end

end Basic65816
