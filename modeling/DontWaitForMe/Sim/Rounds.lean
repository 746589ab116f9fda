import DontWaitForMe.Sim.Steps

/-!
The steps of a round, one by one.
-/

namespace DontWaitForMe.Sim
variable {n m : Nat} {A W R : Type*} {O : Object (Fin m → W) (A × Fin n) R} {s s' : State n m A W R} {g : Past n}
  {k : Config (Fin n) (Fin m → W) (Phase (A × Fin n) R)} {phase : Phase (A × Fin n) R} {pid u : Fin n} {t : Try n A}
  {lToggles diffs : ToggleVector n} {v : R} {pc : Pc n m A R}

/-! ### What a round stores into its copy is safe -/

theorem Trying.told (trying : Trying s g pid t) (told : Told s g u v) (since : g.since u ≤ t.oldSp.seq) :
    (s.pool t.oldSp.index).ret u = v ∧ (s.pool t.oldSp.index).applied.isSet u = s.aToggles.isSet u := by
  rw [trying.index]
  exact ⟨told.ret _ since trying.seq, told.applied _ since trying.seq⟩

theorem Trying.safe_copy (trying : Trying s g pid t) (w : Word n m) :
    Safe s g pid t ((s.pool (s.lsp pid)).copyWord (s.pool t.oldSp.index) w) where
  ret u v told since before := by
    obtain ⟨source, -⟩ := trying.told told since
    cases w with
    | ret q =>
      rcases eq_or_ne u q with rfl | other
      · simpa [ObjectState.copyWord] using source
      · simpa [ObjectState.copyWord, Function.update_of_ne other] using before
    | _ => exact before
  applied u v told since before := by
    obtain ⟨-, source⟩ := trying.told told since
    cases w with
    | applied i =>
      simp only [ObjectState.copyWord, ToggleVector.isSet_atomicCopyBanks]
      split
      · exact source
      · exact before
    | _ => exact before

theorem safe_sfunc (sp : s.sp.index = g.slot s.sp.seq) {arg : A} {q : Fin n} (fresh : Fresh s g t q) :
    Safe s g pid t ((s.pool (s.lsp pid)).sfunc O arg q) where
  ret u v told since before := by
    rcases eq_or_ne u q with rfl | other
    · have late := fresh (told.inactive sp)
      omega
    · simpa [ObjectState.sfunc, Function.update_of_ne other] using before
  applied _ _ _ _ before := before

theorem Read.safe_store {i : Fin (tvecCells n)} (read : Read s g pid t lToggles []) :
    Safe s g pid t ((s.pool (s.lsp pid)).storeCell lToggles i) where
  ret _ _ _ _ before := before
  applied u _ told since before := by
    rw [ObjectState.storeCell, ToggleVector.isSet_atomicCopyBanks]
    split
    · exact read.old u (by simp) (told.born.trans_le since)
    · exact before

theorem copyWord_same {r c : ObjectState n m W R} {w w' : Word n m} (before : w' ≠ w → r.SameWord c w') :
    (r.copyWord c w).SameWord c w' := by
  rcases eq_or_ne w' w with rfl | other
  · cases w' <;> simp [ObjectState.copyWord, ObjectState.SameWord, ToggleVector.atomicCopyBanks]
  · replace before := before other
    cases w with
    | applied i => cases w' with
      | applied j => exact (Function.update_of_ne (fun same : j = i => other (same ▸ rfl)) _ _).trans before
      | _ => exact before
    | state i => cases w' with
      | state j => exact (Function.update_of_ne (fun same : j = i => other (same ▸ rfl)) _ _).trans before
      | _ => exact before
    | ret i => cases w' with
      | ret j => exact (Function.update_of_ne (fun same : j = i => other (same ▸ rfl)) _ _).trans before
      | _ => exact before

/-! ### The steps -/

theorem Inv.loadSp {arg : A} {j : Nat} (inv : Inv O s g k) (at_pid : s.pc pid = .loadSp arg j) :
    Inv O (s.move pid (.loadApplied ⟨arg, j, s.sp⟩)) g k := by
  have fits := inv.fits pid
  rw [at_pid] at fits
  obtain ⟨inside, own, round⟩ := fits
  exact inv.goto ⟨inside, inv.sp, Nat.le_refl _, round, own, fun _ le _ => le⟩

/-- The bit that is looked at is right as far as it matters: no record since the announcement has the new bit before the
operation is applied, and those since then have it. -/
theorem Inv.loadApplied (inv : Inv O s g k) (at_pid : s.pc pid = .loadApplied t) :
    ((s.pool t.oldSp.index).applied.isSet pid = s.aToggles.isSet pid → Inv O (s.move pid .loadSpAgain) g k) ∧
    ((s.pool t.oldSp.index).applied.isSet pid ≠ s.aToggles.isSet pid →
      Inv O (s.move pid (.copyOn t (words n m))) g k) := by
  have fits := inv.fits pid
  rw [at_pid] at fits
  obtain ⟨inside, trying⟩ := fits
  have round := trying.round
  refine ⟨fun same => inv.goto ?_, fun differs => inv.goto ?_⟩
  · rcases inside with ⟨active, -⟩ | ⟨inactive, v, done, told⟩
    · rw [trying.index] at same
      exact absurd same (inv.unapplied pid _ active (by omega) trying.seq)
    · exact ⟨v, inactive, done, told⟩
  · have working : Working s g pid t := ⟨trying, fun inactive => by
      rcases inside with ⟨active, -⟩ | ⟨-, v, -, told⟩
      · exact absurd active inactive
      · by_contra since
        exact differs (trying.told told (by omega)).2⟩
    refine fits_copyOn inside working fun fresh => ⟨working.active inside fresh, fun w away => ?_⟩
    cases w <;> simp [words] at away

theorem Inv.copy {w : Word n m} {rest : List (Word n m)} (inv : Inv O s g k) (at_pid : s.pc pid = .copy t w rest) :
    Inv O ((s.write pid ((s.pool (s.lsp pid)).copyWord (s.pool t.oldSp.index) w)).move pid (.copyOn t rest)) g k := by
  have fits := inv.fits pid
  rw [at_pid] at fits
  obtain ⟨inside, working, copied⟩ := fits
  have safe := working.toTrying.safe_copy w
  have kept : Kept s (s.write pid _) g g pid := inv.kept_write working.toTrying safe
  refine inv.write working.toTrying safe (fits_copyOn (kept.inside inside) (kept.working working) fun fresh => ?_)
  have here : t.oldSp = s.sp := fresh
  obtain ⟨active, same⟩ := copied here
  refine ⟨kept.active_iff.mpr active, fun w' away => ?_⟩
  have copy : (s.write pid ((s.pool (s.lsp pid)).copyWord (s.pool t.oldSp.index) w)).pool (s.lsp pid) =
      (s.pool (s.lsp pid)).copyWord s.cur w := by rw [here]; exact Function.update_self ..
  rw [kept.cur, show (s.write pid _).lsp pid = s.lsp pid from rfl, copy]
  exact copyWord_same fun other => same w' (by simp [other, away])

theorem Inv.loadToggles {i : Fin (tvecCells n)} {rest : List (Fin (tvecCells n))} (inv : Inv O s g k)
    (at_pid : s.pc pid = .loadToggles t i rest lToggles) :
    Inv O (s.move pid (.readOn t (lToggles.atomicCopyBanks s.aToggles i) rest)) g k := by
  have fits := inv.fits pid
  rw [at_pid] at fits
  obtain ⟨inside, working, read, copied⟩ := fits
  have isSet (q : Fin n) : (lToggles.atomicCopyBanks s.aToggles i).isSet q =
      if bank q = i then s.aToggles.isSet q else lToggles.isSet q := ToggleVector.isSet_atomicCopyBanks
  refine inv.goto (fits_readOn inside working ⟨fun q away birth => ?_, fun away => ?_, fun fresh q away differs => ?_⟩
    copied)
  · rw [isSet]
    split
    · rfl
    · exact read.old q (by simp_all) birth
  · rw [isSet]
    split
    · rfl
    · exact read.own (by simp_all)
  · rw [isSet] at differs
    split at differs
    · exact differs
    · exact read.active fresh q (by simp_all) differs

theorem Inv.testSp (inv : Inv O s g k) (at_pid : s.pc pid = .testSp t lToggles) :
    (t.oldSp = s.sp → Inv O (s.move pid (.own t lToggles ((s.pool (s.lsp pid)).applied.xor lToggles))) g k) ∧
    (t.oldSp ≠ s.sp → Inv O (s.move pid (.retry t)) g k) := by
  have fits := inv.fits pid
  rw [at_pid] at fits
  obtain ⟨inside, working, read, copied⟩ := fits
  refine ⟨fun fresh => inv.goto ?_, fun stale => inv.goto (fits_retry inv.toBase inside working.toTrying stale)⟩
  obtain ⟨active, copy⟩ := copied fresh
  refine ⟨inside, working, read, fun q set inactive => ?_, fun _ => ⟨active, copy, by rw [copy]⟩⟩
  rw [copy, ToggleVector.isSet_xor, bne_iff_ne] at set
  exact absurd (read.active fresh q (by simp) set.symm) inactive

theorem Inv.own (inv : Inv O s g k) (at_pid : s.pc pid = .own t lToggles diffs) :
    Inv O ((s.write pid ((s.pool (s.lsp pid)).sfunc O t.arg pid)).move pid (.helpOn t lToggles (diffs.reverseBit pid)))
      g k := by
  have fits := inv.fits pid
  rw [at_pid] at fits
  obtain ⟨inside, working, read, helps, copied⟩ := fits
  have safe : Safe s g pid t ((s.pool (s.lsp pid)).sfunc O t.arg pid) := safe_sfunc inv.sp working.late
  have kept : Kept s (s.write pid _) g g pid := inv.kept_write working.toTrying safe
  refine inv.write working.toTrying safe (fits_helpOn (kept.inside inside) (kept.working working)
    (kept.read read working.seq) (fun q set => kept.fresh ?_) fun fresh => ?_)
  · rcases eq_or_ne q pid with rfl | other
    · exact working.late
    · exact helps q (by simpa [ToggleVector.isSet_reverseBit, other] using set)
  · have here : t.oldSp = s.sp := fresh
    obtain ⟨active, copy, rfl⟩ := copied here
    have mine : lToggles.isSet pid = s.aToggles.isSet pid := read.own (by simp)
    refine ⟨[pid], ?_, List.nodup_singleton _, fun q => ?_, fun q left => ?_⟩
    · rw [kept.cur]
      show Function.update s.pool (s.lsp pid) _ (s.lsp pid) = _
      rw [Function.update_self, copy, ← working.announced]
      rfl
    · rw [kept.cur, ToggleVector.isSet_reverseBit, ToggleVector.isSet_xor, List.mem_singleton]
      rcases eq_or_ne q pid with rfl | other
      · have differs : s.aToggles.isSet q ≠ s.cur.applied.isSet q := active
        simpa [mine] using differs
      · simp only [other, decide_false, Bool.xor_false, false_or, bne_iff_ne]
        exact ne_comm
    · rw [List.mem_singleton]
      rintro rfl
      rw [ToggleVector.isSet_reverseBit, ToggleVector.isSet_xor, mine] at left
      have differs : s.cur.applied.isSet q ≠ s.aToggles.isSet q := active.symm
      revert left differs
      cases s.cur.applied.isSet q <;> cases s.aToggles.isSet q <;> simp

theorem Inv.loadAnnounce {procId : Fin n} (inv : Inv O s g k)
    (at_pid : s.pc pid = .loadAnnounce t lToggles diffs procId) :
    Inv O (s.move pid (.help t lToggles diffs procId (s.announce procId))) g k := by
  have fits := inv.fits pid
  rw [at_pid] at fits
  obtain ⟨inside, working, read, helps, apart, served⟩ := fits
  exact inv.goto ⟨inside, working, read, helps, apart, fun fresh => ⟨rfl, served fresh⟩⟩

theorem Inv.help {procId : Fin n} {arg : A} (inv : Inv O s g k)
    (at_pid : s.pc pid = .help t lToggles diffs procId arg) :
    Inv O ((s.write pid ((s.pool (s.lsp pid)).sfunc O arg procId)).move pid (.helpOn t lToggles diffs)) g k := by
  have fits := inv.fits pid
  rw [at_pid] at fits
  obtain ⟨inside, working, read, helps, apart, served⟩ := fits
  have safe : Safe s g pid t ((s.pool (s.lsp pid)).sfunc O arg procId) := safe_sfunc inv.sp (helps procId (.inr rfl))
  have kept : Kept s (s.write pid _) g g pid := inv.kept_write working.toTrying safe
  refine inv.write working.toTrying safe (fits_helpOn (kept.inside inside) (kept.working working)
    (kept.read read working.seq) (fun q set => kept.fresh (helps q (.inl set))) fun fresh => ?_)
  have here : t.oldSp = s.sp := fresh
  obtain ⟨rfl, served, serves⟩ := served here
  refine ⟨served ++ [procId], ?_, ?_, fun q => ?_, fun q left => ?_⟩
  · rw [kept.cur]
    show Function.update s.pool (s.lsp pid) _ (s.lsp pid) = _
    rw [Function.update_self, serves.lsp]
    exact serve_snoc.symm
  · exact List.nodup_append.mpr ⟨serves.once, List.nodup_singleton _, fun a member b last => by
      rw [List.mem_singleton.mp last]
      exact fun same => serves.left procId (.inr rfl) (same ▸ member)⟩
  · rw [kept.cur, serves.all q, List.mem_append, List.mem_singleton]
    tauto
  · rw [List.mem_append, List.mem_singleton, not_or]
    refine ⟨serves.left q (.inl left), ?_⟩
    rintro rfl
    rw [apart] at left
    cases left

theorem Inv.storeApplied {i : Fin (tvecCells n)} {rest : List (Fin (tvecCells n))} (inv : Inv O s g k)
    (at_pid : s.pc pid = .storeApplied t lToggles i rest) :
    Inv O ((s.write pid ((s.pool (s.lsp pid)).storeCell lToggles i)).move pid (.storeOn t lToggles rest)) g k := by
  have fits := inv.fits pid
  rw [at_pid] at fits
  obtain ⟨inside, working, read, served⟩ := fits
  have safe : Safe s g pid t ((s.pool (s.lsp pid)).storeCell lToggles i) := read.safe_store
  have kept : Kept s (s.write pid _) g g pid := inv.kept_write working.toTrying safe
  refine inv.write working.toTrying safe (fits_storeOn (kept.inside inside) (kept.working working)
    (kept.read read working.seq) fun fresh => ?_)
  have here : t.oldSp = s.sp := fresh
  obtain ⟨served, stores⟩ := served here
  have copy : (s.write pid ((s.pool (s.lsp pid)).storeCell lToggles i)).pool (s.lsp pid) =
      (s.pool (s.lsp pid)).storeCell lToggles i := Function.update_self ..
  refine ⟨served, ?_, stores.once, fun q => ?_, fun j away => ?_⟩
  · rw [kept.cur, show (s.write pid _).lsp pid = s.lsp pid from rfl, copy, ObjectState.storeCell, stores.lsp]
    rfl
  · rw [kept.cur]
    exact stores.all q
  · rw [show (s.write pid _).lsp pid = s.lsp pid from rfl, copy]
    show (s.pool (s.lsp pid)).applied.atomicCopyBanks lToggles i j = lToggles j
    rcases eq_or_ne j i with rfl | other
    · exact Function.update_self ..
    · exact (Function.update_of_ne other _ _).trans (stores.stored j (by simp [other, away]))

theorem Inv.loadSpAgain (inv : Inv O s g k) (at_pid : s.pc pid = .loadSpAgain) :
    Inv O (s.move pid (.loadRet s.sp.index)) g k := by
  have fits := inv.fits pid
  rw [at_pid] at fits
  obtain ⟨v, applied⟩ := fits
  exact inv.goto ⟨v, applied, s.sp.seq, applied.2.2.since, Nat.le_refl _, inv.sp⟩

theorem Inv.loadRet {index : Index n} (inv : Inv O s g k) (at_pid : s.pc pid = .loadRet index) :
    Inv O (s.move pid (.ret ((s.pool index).ret pid))) g k := by
  have fits := inv.fits pid
  rw [at_pid] at fits
  obtain ⟨v, ⟨inactive, done, told⟩, c, since, le, rfl⟩ := fits
  refine inv.goto ⟨inactive, ?_⟩
  rw [told.ret c since le]
  exact done

end DontWaitForMe.Sim
