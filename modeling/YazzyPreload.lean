import YazzyPreload.Program
import YazzyPreload.Syscall
import YazzyPreload.Recyclix.Ancestor
import YazzyPreload.Recyclix.Refusal
import YazzyPreload.Recyclix.History
import YazzyPreload.Recyclix.Selection
import YazzyPreload.Recyclix.Limit
import YazzyPreload.Recyclix.Exclude
import YazzyPreload.Recyclix.Format
import YazzyPreload.Recyclix.Retention
import YazzyPreload.Recyclix.Return
import YazzyPreload.Recyclix.Agree
import YazzyPreload.Recyclix.Terminate
import YazzyPreload.Recyclix.Overflow
import YazzyPreload.Recyclix.Concurrent
import YazzyPreload.Recyclix.Destination
import YazzyPreload.Recyclix.Obstacle
import YazzyPreload.Recyclix.Metadata
import YazzyPreload.Recyclix.Inside
import YazzyPreload.Recyclix.Mirror
import YazzyPreload.Recyclix.Walk
import YazzyPreload.Recyclix.Permission
import YazzyPreload.Lexical
import YazzyPreload.Recyclix.Rules
import YazzyPreload.Recyclix.Together
import YazzyPreload.Recyclix.Rescue
import YazzyPreload.Recyclix.Once
import YazzyPreload.Autossl.Upgrade
import YazzyPreload.Autossl.Servername
import YazzyPreload.Autossl.Sockets
import YazzyPreload.Xdev
import YazzyPreload.Xdev.Hooks
import YazzyPreload.Connredir
import YazzyPreload.Connredir.Reuse
import YazzyPreload.Oobpsai.Reply
import YazzyPreload.Oobpsai.Publish
import YazzyPreload.Oobpsai.Idle
import YazzyPreload.Oobpsai.Peers
import YazzyPreload.Openhelper
import YazzyPreload.SharedFile
import YazzyPreload.Openhelper.Serve
import YazzyPreload.Pathrewrite
import YazzyPreload.Ignorereadflock
import YazzyPreload.Saveunlinkedinode.Log
