import Avant.App.HttpHeadMethod
import Avant.App.HttpOwner
import Avant.App.HttpRange
import Avant.App.IpcHandshake
import Avant.Buffer.BlankSpace
import Avant.Conn.HttpIsolation
import Avant.Conn.WebsocketMessages
import Avant.Event.EventPoller
import Avant.Inifile.Inifile
import Avant.Inifile.Value
import Avant.Ipc.Fifo
import Avant.Ipc.ShmExclusion
import Avant.Json.RoundTrip
import Avant.Lua.RoundTrip
import Avant.Numeric.Canonical
import Avant.Server.Gid
import Avant.Server.LoadBound
import Avant.Server.Reload
import Avant.Timers.Objects
import Avant.Tunnel.Drain
import Avant.Utility.UrlParts
import Avant.Workers.Delivery
import Avant.Workers.LifeCycle
import Avant.Workers.Other
import Avant.Xml.Stable
