import Lsof.Basis.Views
import Lsof.Linux.Fdinfo
import Lsof.Linux.Maps
import Lsof.Linux.UnixTable
import Lsof.Render.CommandCut

/-! # The tables of Internet sockets

`/proc/net/tcp` and its like, as a little-endian kernel prints them and as the
backend reads them. An address is printed by words of four octets, each as the
number the kernel's processor takes it for.
-/

namespace Lsof.Linux

open Lsof.Basis Lsof.Core List

/-- The octets of `n` words, each printed in eight digits. -/
def wordOctets : Nat → Text → Option Bytes
  | 0, _ => some []
  | n + 1, host => do
    let w ← Text.parseHex 32 (host.take 8)
    let rest ← wordOctets n (host.drop 8)
    return ByteOrder.little.bytes 4 w ++ rest

def ipOf (v6 : Bool) (octets : Bytes) : IpAddr :=
  if v6 then .v6 (BitVec.ofNat 128 (ByteOrder.big.value octets)) else .v4 (BitVec.ofNat 32 (ByteOrder.big.value octets))

def parseAddr (s : Text) (v6 : Bool) : Option SocketAddr := do
  let parts ← splitOnce ':' s
  let port ← Text.parseHex 16 parts.2
  if v6 then
    if parts.1.byteLen ≠ 32 || !parts.1.all (·.toNat < 0x80) then none
    else return { ip := ipOf true (← wordOctets 4 parts.1), port }
  else
    if parts.1.byteLen ≠ 8 then none
    else return { ip := ipOf false (← wordOctets 1 parts.1), port }

def tcpState (hex : Text) : TcpState :=
  match Text.parseHex 8 hex with
  | some 1 => .established
  | some 2 => .synSent
  | some 3 => .synRecv
  | some 4 => .finWait1
  | some 5 => .finWait2
  | some 6 => .timeWait
  | some 7 => .close
  | some 8 => .closeWait
  | some 9 => .lastAck
  | some 10 => .listen
  | some 11 => .closing
  | _ => .unknown

def parseQueues (s : Text) : Option TcpExtInfo :=
  (splitOnce ':' s).map fun parts => { sendQueue := Text.parseHex 64 parts.1, recvQueue := Text.parseHex 64 parts.2 }

def protocolNode : Protocol → Text
  | .tcp => "TCP".toList
  | .udp => "UDP".toList
  | .udpLite => "UDPLITE".toList
  | .other name => name

/-- Whether the table's states and queues are read. -/
def numbered (proto : Protocol) : Bool := proto = .tcp || proto = .udp || proto = .udpLite

def inetEntry (proto : Protocol) (v6 : Bool) (inode : BitVec 64) (ends : Option SocketAddr × Option SocketAddr)
    (state : Option TcpState) (tcp : Option TcpExtInfo) : SocketEntry :=
  { fileType := if v6 then .ipv6 else .ipv4
    info := some { protocol := proto, local_ := ends.1, remote := ends.2, state := state.map .tcp, tcp }
    path := none
    device := some (Text.ofNat inode.toNat)
    node := protocolNode proto
    name := none
    typeSuffix := none }

def inetLine (proto : Protocol) (v6 queues : Bool) (line : Text) : Option (BitVec 64 × SocketEntry) :=
  let f := splitWhitespace line
  if f.length < 10 then none
  else (Text.parseUnsigned 64 (f.getD 9 [])).map fun inode =>
    (inode, inetEntry proto v6 inode (parseAddr (f.getD 1 []) v6, parseAddr (f.getD 2 []) v6)
      (if numbered proto then some (tcpState (f.getD 3 [])) else none)
      (if queues && numbered proto then parseQueues (f.getD 4 []) else none))

def parseInet (tbl : SocketTable) (text : Text) (proto : Protocol) (v6 queues : Bool) : SocketTable :=
  { tbl with byInode := updateAll tbl.byInode ((text.lines.drop 1).filterMap (inetLine proto v6 queues)) }

structure InetAddr (v6 : Bool) where
  octets : Bytes
  port : BitVec 16
  sized : octets.length = 4 * if v6 then 4 else 1

/-- A socket as the kernel lists it, with the columns that are not read: four before
the inode, each with the blanks before it, and what comes after. States count from 1. -/
structure InetSocket (v6 : Bool) where
  sl : Nat
  near : InetAddr v6
  far : InetAddr v6
  state : BitVec 8
  txQueue : BitVec 32
  rxQueue : BitVec 32
  inode : BitVec 64
  unread : List (Nat × Text)
  rest : Text
  state_pos : 0 < state.toNat
  four : unread.length = 4
  words : ∀ c ∈ unread, c.2 ≠ [] ∧ Graphic c.2
  plain : rest.Plain

def octetWords : Nat → Bytes → Text
  | 0, _ => []
  | n + 1, octets => Text.hexPad Text.upperHex 8 (ByteOrder.little.value (octets.take 4)) ++ octetWords n (octets.drop 4)

variable {v6 : Bool}

def InetAddr.text (a : InetAddr v6) : Text :=
  octetWords (if v6 then 4 else 1) a.octets ++ ':' :: Text.hexPad Text.upperHex 4 a.port.toNat

def InetAddr.addr (a : InetAddr v6) : SocketAddr := { ip := ipOf v6 a.octets, port := a.port.toNat }

/-- Words, each with blanks before it and one after. -/
def spread (rest : Text) : List (Nat × Text) → Text
  | [] => rest
  | (n, word) :: cols => List.replicate n ' ' ++ (word ++ ' ' :: spread rest cols)

namespace InetSocket

variable (s : InetSocket v6)

def queues : Text :=
  Text.hexPad Text.upperHex 8 s.txQueue.toNat ++ ':' :: Text.hexPad Text.upperHex 8 s.rxQueue.toNat

def columns : List (Nat × Text) :=
  [(4 - (Text.ofNat s.sl).length, Text.ofNat s.sl ++ [':']), (0, s.near.text), (0, s.far.text),
    (0, Text.hexPad Text.upperHex 2 s.state.toNat), (0, s.queues)] ++ (s.unread ++ [(0, Text.ofNat s.inode.toNat)])

def line : Text := spread s.rest s.columns

def entry (proto : Protocol) (queues : Bool) : SocketEntry :=
  inetEntry proto v6 s.inode (some s.near.addr, some s.far.addr)
    (if numbered proto then some (linuxTcpStates[s.state.toNat]?.getD .unknown) else none)
    (if queues && numbered proto then some { sendQueue := some s.txQueue.toNat, recvQueue := some s.rxQueue.toNat } else none)

end InetSocket

def inetTable (header : Text) (sockets : List (InetSocket v6)) : Text :=
  Text.printed (header :: sockets.map InetSocket.line)

variable {cols : List (Nat × Text)} {rest : Text}

theorem splitWhitespace_spread (h : ∀ c ∈ cols, c.2 ≠ [] ∧ Graphic c.2) :
    splitWhitespace (spread rest cols) = cols.map Prod.snd ++ splitWhitespace rest := by
  induction cols with
  | nil => rfl
  | cons c cols ih =>
    obtain ⟨⟨hne, hword⟩, hcols⟩ := forall_mem_cons.mp h
    have hsolid : c.2.Solid := fun x hx => Text.isWhitespace_of_graphic (hword x hx).1 (hword x hx).2
    have hend : AtEnd Text.isWhitespace (' ' :: spread rest cols) := by simp [AtEnd]; decide
    change words Text.isWhitespace _ = _
    rw [spread, words_replicate (by decide), words_append hne hsolid hend, words_separator (by decide)]
    exact congrArg (c.2 :: ·) (ih hcols)

theorem plain_spread (h : ∀ c ∈ cols, c.2 ≠ [] ∧ Graphic c.2) (hrest : rest.Plain) : (spread rest cols).Plain := by
  induction cols with
  | nil => exact hrest
  | cons c cols ih =>
    obtain ⟨⟨-, hword⟩, hcols⟩ := forall_mem_cons.mp h
    have hblanks : Text.Plain (replicate c.1 ' ') := fun x hx => (mem_replicate.mp hx).2 ▸ by decide
    have hplain : c.2.Plain := fun x hx => ⟨Nat.le_of_succ_le (hword x hx).1, (hword x hx).2⟩
    exact Text.plain_append.mpr ⟨hblanks, Text.plain_append.mpr ⟨hplain, Text.plain_cons.mpr ⟨by decide, ih hcols⟩⟩⟩

theorem splitOnce_append {a b : Text} (h : ∀ c ∈ a, (Text.hexDigitValue c).isSome) : splitOnce ':' (a ++ ':' :: b) = some (a, b) := by
  have hout : ∀ c ∈ a, (c != ':') = true := fun c hc => bne_iff_ne.mpr fun heq => absurd (heq ▸ h c hc) (by decide)
  rw [splitOnce, if_pos (by simp), takeWhile_append_of_pos hout, dropWhile_append_of_pos hout]
  simp

theorem hexDigit_octetWords {n : Nat} {octets : Bytes} : ∀ c ∈ octetWords n octets, (Text.hexDigitValue c).isSome := by
  induction n generalizing octets with
  | zero => exact forall_mem_nil _
  | succ n ih => exact forall_mem_append.mpr ⟨fun c hc => Text.mem_hexPad (.inl rfl) hc, ih⟩

theorem wordOctets_octetWords {n : Nat} {octets : Bytes} (h : octets.length = 4 * n) :
    wordOctets n (octetWords n octets) = some octets ∧ (octetWords n octets).length = 8 * n := by
  induction n generalizing octets with
  | zero => exact ⟨congrArg some (length_eq_zero_iff.mp h).symm, rfl⟩
  | succ n ih =>
    have hfour : (octets.take 4).length = 4 := by rw [length_take]; omega
    have hword := ByteOrder.lowFirst_lt (octets.take 4)
    have hback := ByteOrder.lowFirstBytes_lowFirst (octets.take 4)
    obtain ⟨hrest, hlength⟩ := @ih (octets.drop 4) (by rw [length_drop]; omega)
    rw [hfour] at hword hback
    have hhex := Text.length_hexPad Text.upperHex 8 (ByteOrder.little.value (octets.take 4))
    refine ⟨?_, by rw [octetWords, length_append, hhex, hlength]; omega⟩
    rw [octetWords, wordOctets, take_left' hhex, drop_left' hhex, hrest, Text.parseHex_hexPad (.inl rfl) (by decide) hword hword]
    exact congrArg some ((congrArg (· ++ _) hback).trans (take_append_drop 4 octets))

theorem graphic_hex {t : Text} (h : ∀ c ∈ t, (Text.hexDigitValue c).isSome) : Graphic t := by
  intro c hc
  have hrange := Text.hexDigit_range (h c hc)
  omega

theorem graphic_ofNat (n : Nat) : Graphic (Text.ofNat n) := by
  intro c hc
  have hrange := Text.digit_range (Text.isDigit_of_mem_ofNat hc)
  omega

theorem graphic_pair {a b : Text} (ha : ∀ c ∈ a, (Text.hexDigitValue c).isSome) (hb : ∀ c ∈ b, (Text.hexDigitValue c).isSome) :
    a ++ ':' :: b ≠ [] ∧ Graphic (a ++ ':' :: b) :=
  ⟨by simp, forall_mem_append.mpr ⟨graphic_hex ha, forall_mem_cons.mpr ⟨by decide, graphic_hex hb⟩⟩⟩

theorem parseAddr_text (a : InetAddr v6) : parseAddr a.text v6 = some a.addr := by
  have hport : Text.parseHex 16 (Text.hexPad Text.upperHex 4 a.port.toNat) = some a.port.toNat :=
    Text.parseHex_hexPad (.inl rfl) (by decide) a.port.isLt a.port.isLt
  obtain ⟨hoctets, hlength⟩ := wordOctets_octetWords a.sized
  have hgraphic : Graphic (octetWords (if v6 then 4 else 1) a.octets) := graphic_hex hexDigit_octetWords
  have hbytes := Escaper.byteLen_of_graphic hgraphic
  have hascii : (octetWords (if v6 then 4 else 1) a.octets).all (·.toNat < 0x80) = true :=
    all_eq_true.mpr fun c hc => decide_eq_true (by have hc := hgraphic c hc; omega)
  rw [hlength] at hbytes
  rw [parseAddr, InetAddr.text, splitOnce_append hexDigit_octetWords]
  cases v6 with
  | false =>
    simp only [Bool.false_eq_true, if_false] at hoctets hbytes hascii
    simp [hport, hbytes, hoctets, InetAddr.addr]
  | true =>
    simp only [if_true] at hoctets hbytes hascii
    simp only [Option.bind_eq_bind, Option.bind_some, hport, hbytes, hoctets, hascii, if_true]
    rfl

theorem tcpState_hexPad {n : BitVec 8} (h : 0 < n.toNat) :
    tcpState (Text.hexPad Text.upperHex 2 n.toNat) = linuxTcpStates[n.toNat]?.getD .unknown := by
  rw [tcpState, Text.parseHex_hexPad (.inl rfl) (by decide) n.isLt n.isLt]
  generalize n.toNat = k at h
  match k, h with
  | 1, _ | 2, _ | 3, _ | 4, _ | 5, _ | 6, _ | 7, _ | 8, _ | 9, _ | 10, _ | 11, _ => rfl
  | k + 12, _ => rfl

namespace InetSocket

variable (s : InetSocket v6)

theorem columns_words : ∀ c ∈ s.columns, c.2 ≠ [] ∧ Graphic c.2 := by
  have hhex : ∀ w n, ∀ c ∈ Text.hexPad Text.upperHex w n, (Text.hexDigitValue c).isSome := fun _ _ _ => Text.mem_hexPad (.inl rfl)
  have hsl : Text.ofNat s.sl ++ [':'] ≠ [] ∧ Graphic (Text.ofNat s.sl ++ [':']) :=
    ⟨by simp, forall_mem_append.mpr ⟨graphic_ofNat _, by simp⟩⟩
  have hstate := graphic_hex (hhex 2 s.state.toNat)
  have hinode := graphic_ofNat s.inode.toNat
  intro c hc
  rcases mem_append.mp hc with hc | hc
  · simp only [mem_cons, not_mem_nil, or_false] at hc
    rcases hc with rfl | rfl | rfl | rfl | rfl
    · exact hsl
    · exact graphic_pair hexDigit_octetWords (hhex _ _)
    · exact graphic_pair hexDigit_octetWords (hhex _ _)
    · exact ⟨Text.hexPad_ne_nil _ (by decide) _, hstate⟩
    · exact graphic_pair (hhex _ _) (hhex _ _)
  · rcases mem_append.mp hc with hc | hc
    · exact s.words c hc
    · cases mem_singleton.mp hc
      exact ⟨Text.ofNat_ne_nil _, hinode⟩

theorem inetLine_line (proto : Protocol) (queues : Bool) :
    inetLine proto v6 queues s.line = some (s.inode, s.entry proto queues) := by
  have hwords : splitWhitespace s.line = _ := splitWhitespace_spread s.columns_words
  have hword (n : BitVec 32) : Text.parseHex 64 (Text.hexPad Text.upperHex 8 n.toNat) = some n.toNat :=
    Text.parseHex_hexPad (.inl rfl) (by decide) n.isLt (Nat.lt_trans n.isLt (by decide))
  have hqueues : parseQueues s.queues = some { sendQueue := some s.txQueue.toNat, recvQueue := some s.rxQueue.toNat } := by
    rw [parseQueues, InetSocket.queues, splitOnce_append fun c hc => Text.mem_hexPad (.inl rfl) hc, Option.map_some, hword, hword]
  obtain ⟨a, b, c, d, hunread⟩ : ∃ a b c d, s.unread = [a, b, c, d] := by
    have hfour := s.four
    match hu : s.unread, hfour with
    | [a, b, c, d], _ => exact ⟨a, b, c, d, rfl⟩
  rw [inetLine, hwords, columns, hunread]
  simp [parseAddr_text, tcpState_hexPad s.state_pos, hqueues, Text.parseUnsigned_ofNat, entry]

end InetSocket

/-- The table the kernel prints for sockets of distinct inodes holds, for each inode,
its socket's own ends, state and queues, and no other inode. -/
theorem parseInet_inetTable (proto : Protocol) (queues : Bool) {header : Text} (hheader : header.IsLine)
    {sockets : List (InetSocket v6)} (hdistinct : (sockets.map InetSocket.inode).Nodup) :
    (∀ s ∈ sockets, (parseInet {} (inetTable header sockets) proto v6 queues).byInode s.inode = some (s.entry proto queues)) ∧
    ∀ inode ∉ sockets.map InetSocket.inode, (parseInet {} (inetTable header sockets) proto v6 queues).byInode inode = none := by
  have hlines : (inetTable header sockets).lines = header :: sockets.map InetSocket.line := by
    apply Text.lines_printed
    refine forall_mem_cons.mpr ⟨hheader, forall_mem_map.mpr fun s _ => Text.isLine_of_plain ?_⟩
    exact plain_spread s.columns_words s.plain
  have hentries : (sockets.map InetSocket.line).filterMap (inetLine proto v6 queues) =
      sockets.map fun s => (s.inode, s.entry proto queues) := by
    rw [filterMap_map, ← filterMap_eq_map]
    exact congrArg (filterMap · sockets) (funext fun s => s.inetLine_line proto queues)
  unfold parseInet
  dsimp only
  rw [hlines, drop_one, tail_cons, hentries]
  constructor
  · intro s hs
    have hown : lastOf s.inode (sockets.map fun s => (s.inode, s.entry proto queues)) = some (s.entry proto queues) := by
      refine lastOf_of_unique (mem_map.mpr ⟨s, hs, rfl⟩) fun e he hk => ?_
      obtain ⟨t, ht, rfl⟩ := mem_map.mp he
      rw [inj_on_of_nodup_map hdistinct ht hs hk]
    rw [updateAll_apply, hown]
    rfl
  · intro inode hinode
    have hnone : lastOf inode (sockets.map fun s => (s.inode, s.entry proto queues)) = none := by
      refine lastOf_eq_none fun e he hk => ?_
      obtain ⟨t, ht, rfl⟩ := mem_map.mp he
      exact hinode (hk ▸ mem_map.mpr ⟨t, ht, rfl⟩)
    rw [updateAll_apply, hnone]
    rfl

/-- A listening socket on the loopback address. -/
def loopback : InetSocket false where
  sl := 0
  near := ⟨[127, 0, 0, 1], 22, rfl⟩
  far := ⟨[0, 0, 0, 0], 0, rfl⟩
  state := 10
  txQueue := 0
  rxQueue := 0
  inode := 7
  unread := List.replicate 4 (0, ['0'])
  rest := []
  state_pos := by decide
  four := rfl
  words := by decide
  plain := by decide

theorem parseInet_inetTable_loopback :
    (parseInet {} (inetTable [] [loopback]) .tcp false true).byInode 7 = some (loopback.entry .tcp true) :=
  (@parseInet_inetTable false .tcp true [] ⟨by decide, by decide⟩ [loopback] (by decide)).1 loopback (by simp)

end Lsof.Linux
