import ReliableDatagram.Saturating
import ReliableDatagram.Settings

/-!
# Negotiation of sizes

The two ends of a connection agree on the size of their datagrams and on how much
reliable data may be in flight. Windows follow from bandwidth: every `windowScale`
bytes per second buy one minimum window. A bandwidth of 0 stands for no limit.
-/

namespace ReliableDatagram

namespace Settings

def clampMtu (settings : Settings) (mtu : UInt16) : Except Fault UInt16 :=
  settings.mtu.clamp mtu

def clampWindow (settings : Settings) (window : UInt32) : Except Fault UInt32 :=
  settings.window.clamp window

/-- The window that a bandwidth buys. -/
def windowFor (settings : Settings) (bandwidth : UInt32) : Except Fault UInt32 :=
  if bandwidth = 0 then .ok settings.window.upper
  else settings.clampWindow
    (Word.mulSat (bandwidth / max settings.windowScale 1) settings.window.lower)

/-- The tighter of two bandwidths, either of which may be 0 for no limit. -/
def tighterBandwidth (a b : UInt32) : UInt32 :=
  if a = 0 then b else if b = 0 then a else min a b

/-- The window toward a remote side that receives, and from a local one that sends, so fast. -/
def peerWindow (settings : Settings) (remoteIncoming localOutgoing : UInt32) :
    Except Fault UInt32 :=
  settings.windowFor (tighterBandwidth remoteIncoming localOutgoing)

end Settings

end ReliableDatagram
