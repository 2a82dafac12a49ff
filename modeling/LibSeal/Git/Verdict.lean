import LibSeal.Git.EndToEnd
import LibSeal.Git.Soundness

/-!
# What the audit says about the traffic

The soundness query, asked of the tables that some traffic has left. In terms of the exchanges it
returns the references that a server has advertised at another commit than the last push that names
them asked for, whether this push was accepted or not (`mem_soundnessQuery_of_isAudited`).

A server applies the commands that it accepts, and an honest server advertises what it has
(`HonestServer`). It is not reported if it rejects nothing; and if it is reported it is for a push
that it has rejected (`verdict_of_traffic`). What comes before what is the order in which slots end.
-/

namespace LibSeal

open Bytes SqlQuery KeyedMachine

/-! ### The last push -/

/-- The last push before an exchange that names a reference, with its command. -/
structure LastPush (xs : List GitExchange) (n : ℕ) (repo name : Bytes) (m : ℕ) (req : PushRequest)
    (rsp : PushResult) (c : Command) : Prop where
  lt : m < n
  exchange : xs[m]? = some (.push req rsp)
  repository_eq : req.repository = repo
  mem : c ∈ req.list.commands
  name_eq : c.name.bytes = name
  last : ∀ (m' : ℕ) (req' : PushRequest) (rsp' : PushResult), m < m' → m' < n →
    xs[m']? = some (.push req' rsp') → req'.repository = repo →
    ∀ c' ∈ req'.list.commands, c'.name.bytes ≠ name

/-- An exchange advertises a reference. -/
def Advertises (xs : List GitExchange) (n : ℕ) (repo : Bytes) (r : Ref) : Prop :=
  ∃ (req : InfoRefsRequest) (rsp : InfoRefsReply req.service),
    xs[n]? = some (.infoRefs req rsp) ∧ req.repository = repo ∧ r ∈ rsp.advertisement.refs

namespace IsAudited

variable {xs : List GitExchange} {db : GitDatabase}

/-- The updates are the commands of the pushes. -/
theorem mem_updates_iff (h : IsAudited xs db) {u : UpdateRow} : u ∈ db.updates.rows ↔
    ∃ (m : ℕ) (req : PushRequest) (rsp : PushResult), xs[m]? = some (.push req rsp) ∧
      ∃ c ∈ req.list.commands, u = c.row ((m + 1 : ℕ) : ℤ) req.repository rsp.accepts := by
  rw [h.mem_updates]
  constructor
  · rintro ⟨m, ⟨req, rsp⟩ | ⟨req, rsp⟩, hx, hr⟩
    · obtain ⟨c, hc, hu⟩ := List.mem_map.1 hr
      exact ⟨m, req, rsp, hx, c, hc, (GitRow.update.inj hu).symm⟩
    · obtain ⟨r, -, hu⟩ := List.mem_map.1 hr
      exact nomatch hu
  · rintro ⟨m, req, rsp, hx, c, hc, rfl⟩
    exact ⟨m, _, hx, List.mem_map.2 ⟨c, hc, rfl⟩⟩

theorem mem_advertisements_iff (h : IsAudited xs db) {a : AdvertisementRow} :
    a ∈ db.advertisements.rows ↔ ∃ n repo r, Advertises xs n repo r ∧
      a = r.row ((n + 1 : ℕ) : ℤ) repo := by
  rw [h.mem_advertisements]
  constructor
  · rintro ⟨n, ⟨req, rsp⟩ | ⟨req, rsp⟩, hx, hr⟩
    · obtain ⟨c, -, ha⟩ := List.mem_map.1 hr
      exact nomatch ha
    · obtain ⟨r, hr, ha⟩ := List.mem_map.1 hr
      exact ⟨n, req.repository, r, ⟨req, rsp, hx, rfl, hr⟩, (GitRow.advertisement.inj ha).symm⟩
  · rintro ⟨n, repo, r, ⟨req, rsp, hx, rfl, hr⟩, rfl⟩
    exact ⟨n, _, hx, List.mem_map.2 ⟨r, hr, rfl⟩⟩

/-- **The last update** of an advertised reference is the command of the last push. -/
theorem latestUpdate_iff (h : IsAudited xs db) {n : ℕ} {repo : Bytes} {r : Ref} {u : UpdateRow} :
    LatestUpdate db.updates.rows (r.row ((n + 1 : ℕ) : ℤ) repo) u ↔
      ∃ (m : ℕ) (req : PushRequest) (rsp : PushResult) (c : Command),
        LastPush xs n repo r.name.bytes m req rsp c ∧
        u = c.row ((m + 1 : ℕ) : ℤ) req.repository rsp.accepts := by
  constructor
  · rintro ⟨⟨hu, hrepo, hbranch, htime⟩, hmax⟩
    obtain ⟨m, req, rsp, hx, c, hc, rfl⟩ := h.mem_updates_iff.1 hu
    have hlt : m < n := by
      have h' : ((m + 1 : ℕ) : ℤ) < ((n + 1 : ℕ) : ℤ) := htime
      omega
    refine ⟨m, req, rsp, c, ⟨hlt, hx, hrepo, hc, hbranch, ?_⟩, rfl⟩
    intro m' req' rsp' hm hn hx' hrepo' c' hc' hname
    have hle : ((m' + 1 : ℕ) : ℤ) ≤ ((m + 1 : ℕ) : ℤ) :=
      hmax _ (h.mem_updates_iff.2 ⟨m', req', rsp', hx', c', hc', rfl⟩)
        ⟨hrepo', hname, show ((m' + 1 : ℕ) : ℤ) < ((n + 1 : ℕ) : ℤ) by omega⟩
    omega
  · rintro ⟨m, req, rsp, c, hlast, rfl⟩
    have hmem := h.mem_updates_iff.2 ⟨m, req, rsp, hlast.exchange, c, hlast.mem, rfl⟩
    refine ⟨⟨hmem, hlast.repository_eq, hlast.name_eq, ?_⟩, ?_⟩
    · show ((m + 1 : ℕ) : ℤ) < ((n + 1 : ℕ) : ℤ)
      have := hlast.lt
      omega
    · rintro v hv ⟨hrepo, hbranch, htime⟩
      obtain ⟨m', req', rsp', hx', c', hc', rfl⟩ := h.mem_updates_iff.1 hv
      have hlt : ((m' + 1 : ℕ) : ℤ) < ((n + 1 : ℕ) : ℤ) := htime
      show ((m' + 1 : ℕ) : ℤ) ≤ ((m + 1 : ℕ) : ℤ)
      by_contra hle
      exact hlast.last m' req' rsp' (by omega) (by omega) hx' hrepo c' hc' hbranch

/-- **What the soundness query returns**, in terms of the exchanges. -/
theorem mem_soundnessQuery_iff (h : IsAudited xs db) {a : AdvertisementRow} :
    a ∈ db.soundnessQuery ↔ ∃ n repo r, Advertises xs n repo r ∧
      a = r.row ((n + 1 : ℕ) : ℤ) repo ∧
        ∃ (m : ℕ) (req : PushRequest) (rsp : PushResult) (c : Command),
          LastPush xs n repo r.name.bytes m req rsp c ∧ c.new.bytes ≠ r.id.bytes := by
  rw [mem_soundnessQuery, h.mem_advertisements_iff]
  constructor
  · rintro ⟨⟨n, repo, r, hr, rfl⟩, u, hu, hne⟩
    obtain ⟨m, req, rsp, c, hlast, rfl⟩ := h.latestUpdate_iff.1 hu
    exact ⟨n, repo, r, hr, rfl, m, req, rsp, c, hlast, hne⟩
  · rintro ⟨n, repo, r, hr, rfl, m, req, rsp, c, hlast, hne⟩
    exact ⟨⟨n, repo, r, hr, rfl⟩, _, h.latestUpdate_iff.2 ⟨m, req, rsp, c, hlast, rfl⟩, hne⟩

end IsAudited

/-! ### Honest servers -/

/-- What a command makes of its reference. -/
def Command.value (c : Command) : Option Bytes :=
  if c.type = .delete then none else some c.new.bytes

/-- A command is carried out if it is accepted. -/
def Command.apply (repo : Bytes) (accepted : Command → Bool) (s : RefState) (c : Command) :
    RefState := fun repo' name ↦
  if repo' = repo ∧ name = c.name.bytes ∧ accepted c = true then c.value else s repo' name

/-- What a server does in an exchange. -/
def GitExchange.apply (s : RefState) : GitExchange → RefState
  | push req rsp => req.list.commands.foldl (Command.apply req.repository rsp.accepts) s
  | infoRefs _ _ => s

/-- An honest server advertises what it has. Names that are symbolic, such as `HEAD`, stand for
other references; they are not pushed to. -/
structure HonestServer (symbolic : Bytes → Prop) (s : RefState) (xs : List GitExchange) : Prop where
  pushes : ∀ (n : ℕ) (req : PushRequest) (rsp : PushResult), xs[n]? = some (.push req rsp) →
    ∀ c ∈ req.list.commands, ¬ symbolic c.name.bytes
  advertises : ∀ n repo r, Advertises xs n repo r → ¬ symbolic r.name.bytes →
    (xs.take n).foldl GitExchange.apply s repo r.name.bytes = some r.id.bytes

/-- Commands with other names leave a reference alone. -/
theorem foldl_apply_of_ne {repo repo' name : Bytes} {accepted : Command → Bool}
    {cs : List Command} (h : repo' = repo → ∀ c ∈ cs, c.name.bytes ≠ name) (s : RefState) :
    cs.foldl (Command.apply repo accepted) s repo' name = s repo' name := by
  induction cs generalizing s with
  | nil => rfl
  | cons c cs ih =>
    rw [List.foldl_cons, ih fun hrepo c' hc' ↦ h hrepo c' (List.mem_cons_of_mem _ hc'),
      Command.apply, if_neg]
    rintro ⟨hrepo, hname, -⟩
    exact h hrepo c List.mem_cons_self hname.symm

/-- A push carries out the command that names a reference. -/
theorem foldl_apply_of_mem {repo : Bytes} {accepted : Command → Bool} {cs : List Command}
    (hnodup : (cs.map fun c ↦ c.name.bytes).Nodup) {c : Command} (hc : c ∈ cs)
    (haccepted : accepted c = true) (s : RefState) :
    cs.foldl (Command.apply repo accepted) s repo c.name.bytes = c.value := by
  induction cs generalizing s with
  | nil => exact absurd hc List.not_mem_nil
  | cons d cs ih =>
    obtain ⟨hd, hnodup⟩ := List.nodup_cons.1 hnodup
    rw [List.foldl_cons]
    rcases List.mem_cons.1 hc with rfl | hc
    · have hne : ∀ c' ∈ cs, c'.name.bytes ≠ c.name.bytes := fun c' hc' hname ↦
        hd (List.mem_map.2 ⟨c', hc', hname⟩)
      rw [foldl_apply_of_ne fun _ ↦ hne, Command.apply, if_pos ⟨rfl, rfl, haccepted⟩]
    · exact ih hnodup hc _

/-- **The last push decides** what a reference is at, if it is accepted. -/
theorem LastPush.foldl_apply {xs : List GitExchange} {n : ℕ} {repo name : Bytes} {m : ℕ}
    {req : PushRequest} {rsp : PushResult} {c : Command} (h : LastPush xs n repo name m req rsp c)
    (haccepted : rsp.accepts c = true) (s : RefState) :
    (xs.take n).foldl GitExchange.apply s repo name = c.value := by
  obtain ⟨k, rfl⟩ := Nat.exists_eq_add_of_lt h.lt
  induction k with
  | zero =>
    rw [Nat.add_zero, List.take_add_one, h.exchange, List.foldl_append]
    obtain ⟨-, -, rfl, hmem, rfl, -⟩ := h
    exact foldl_apply_of_mem req.list.nodup hmem haccepted _
  | succ k ih =>
    have hbefore : LastPush xs (m + k + 1) repo name m req rsp c :=
      ⟨by omega, h.exchange, h.repository_eq, h.mem, h.name_eq,
        fun m' req' rsp' hm hn ↦ h.last m' req' rsp' hm (by omega)⟩
    rw [show m + (k + 1) + 1 = m + k + 1 + 1 by omega, List.take_add_one, List.foldl_append,
      ← ih hbefore]
    rcases hx : xs[m + k + 1]? with - | (⟨req', rsp'⟩ | ⟨req', rsp'⟩)
    · rfl
    · exact foldl_apply_of_ne (fun hrepo c' hc' ↦ h.last _ req' rsp' (by omega) (by omega) hx
        hrepo.symm c' hc') _
    · rfl

/-- **An honest server is reported only for pushes that it has rejected.** -/
theorem IsAudited.soundnessQuery_eq_nil_iff {xs : List GitExchange} {db : GitDatabase}
    (h : IsAudited xs db) {symbolic : Bytes → Prop} {s : RefState}
    (hhonest : HonestServer symbolic s xs) :
    db.soundnessQuery = [] ↔ ∀ n repo r m req rsp c, Advertises xs n repo r →
      LastPush xs n repo r.name.bytes m req rsp c → rsp.accepts c = false →
        c.new.bytes = r.id.bytes := by
  rw [List.eq_nil_iff_forall_not_mem]
  constructor
  · intro hempty n repo r m req rsp c hr hlast _
    by_contra hne
    exact hempty _ (h.mem_soundnessQuery_iff.2 ⟨n, repo, r, hr, rfl, m, req, rsp, c, hlast, hne⟩)
  · intro hrejected a ha
    obtain ⟨n, repo, r, hr, rfl, m, req, rsp, c, hlast, hne⟩ := h.mem_soundnessQuery_iff.1 ha
    rcases haccepted : rsp.accepts c with - | -
    · exact hne (hrejected n repo r m req rsp c hr hlast haccepted)
    · -- the server has carried the command out, and shows another commit
      have hsymbolic := hlast.name_eq ▸ hhonest.pushes m req rsp hlast.exchange c hlast.mem
      have hvalue := hlast.foldl_apply haccepted s
      rw [hhonest.advertises n repo r hr hsymbolic, Command.value] at hvalue
      split_ifs at hvalue
      exact hne (Option.some.inj hvalue).symm

/-! ### The verdict -/

/-- **The audit of Git traffic.** For any order of the callbacks of any number of connections and
any pieces, the run ends, and on the tables it leaves the soundness query returns exactly the
references that were advertised at another commit than the last push that names them asked for. An
honest server is reported for nothing but pushes that it has rejected. -/
theorem verdict_of_traffic {K : Type} [DecidableEq K] (T : Traffic gitWire K)
    (hcount : T.callbacks.length < 2147483647) {cfg : BuildConfig} (hdo : cfg.doInsert = true)
    (P : Platform) (uncompress : ℕ → Bytes → Option Bytes) (mem : ℕ → AuditorMemory)
    (signs : ℕ → Option Signature) (hsigns : cfg.signs = true → ∀ n, (signs n).isSome = true) :
    ∃ ys st, T.LogsAs .git uncompress gitStore .init cfg P mem signs ys st ∧
      (∀ a, a ∈ st.db.content.soundnessQuery ↔ ∃ n repo r, Advertises (exchangesOf ys) n repo r ∧
        a = r.row ((n + 1 : ℕ) : ℤ) repo ∧ ∃ m req rsp c,
          LastPush (exchangesOf ys) n repo r.name.bytes m req rsp c ∧
            c.new.bytes ≠ r.id.bytes) ∧
      ∀ symbolic s, HonestServer symbolic s (exchangesOf ys) →
        (st.db.content.soundnessQuery = [] ↔ ∀ n repo r m req rsp c,
          Advertises (exchangesOf ys) n repo r →
            LastPush (exchangesOf ys) n repo r.name.bytes m req rsp c → rsp.accepts c = false →
              c.new.bytes = r.id.bytes) := by
  obtain ⟨ys, st, es, hlogs, hes, hdb, -⟩ :=
    T.exists_isHistory hcount hdo P uncompress mem signs hsigns
  have haudited : IsAudited (exchangesOf ys) st.db.content := hdb ▸ hes.isAudited
  exact ⟨ys, st, hlogs, fun a ↦ haudited.mem_soundnessQuery_iff,
    fun symbolic s hhonest ↦ haudited.soundnessQuery_eq_nil_iff hhonest⟩

/-- **A branch that is shown where it is not** is reported. -/
theorem verdict_of_traffic_keptAlive : ∃ ys st,
    pushThenRefs.traffic.LogsAs .git (fun _ _ ↦ none) gitStore .init ⟨true, true, true, true⟩
      twoRowPlatform (fun _ ↦ .zero) (fun _ ↦ some someSignature) ys st ∧
    ⟨2, ascii "/r.git/", masterRef.bytes, zeroId.bytes⟩ ∈ st.db.content.soundnessQuery := by
  obtain ⟨ys, st, hlogs, hquery, -⟩ := verdict_of_traffic pushThenRefs.traffic (by decide +kernel)
    (show (⟨true, true, true, true⟩ : BuildConfig).doInsert = true from rfl) twoRowPlatform
    (fun _ _ ↦ none) (fun _ ↦ .zero) (fun _ ↦ some someSignature) fun _ _ ↦ rfl
  have hys := exchangesOf_of_logsAs hlogs
  refine ⟨ys, st, hlogs, (hquery _).2 ⟨1, ascii "/r.git/", ⟨masterRef, zeroId⟩, ?_, rfl, 0,
    pushMaster, plainResult, ⟨zeroId, someId, masterRef⟩, ?_, by decide⟩⟩
  · rw [hys]
    exact ⟨_, _, rfl, rfl, List.mem_singleton_self _⟩
  · rw [hys]
    exact ⟨Nat.one_pos, rfl, rfl, List.mem_singleton_self _, rfl, by omega⟩

end LibSeal
